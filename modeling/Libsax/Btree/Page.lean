import Libsax.Btree.PageRecords

/-! The page of a node: `read` finds there what `write` put into it, with the overflow area
where the page says it is. -/
namespace Libsax.Btree

open Libsax.Lib
open Libsax.Db (peek peekSize peek_middle peekSize_middle)

def InLong (number : Int) : Prop := -2 ^ 63 ≤ number ∧ number < 2 ^ 63

private theorem decodeLong_encodeLong {number : Int} (hlong : InLong number) :
    decodeLong (encodeLong number) = number := by
  obtain ⟨hlow, hhigh⟩ := hlong
  have hdecode : Bytes.decode (encodeLong number) = (number % 2 ^ 64).toNat := by
    unfold encodeLong
    rw [Bytes.decode_encode]
    exact Nat.mod_eq_of_lt (by omega)
  unfold decodeLong
  rw [hdecode]
  unfold toLong
  split_ifs <;> omega

@[simp] private theorem encodeLong_length (number : Int) : (encodeLong number).length = 8 :=
  Bytes.encode_length 8 _

theorem toLong_inLong (number : Nat) : InLong (toLong number) := by
  unfold toLong InLong
  split_ifs <;> omega

namespace BtreeNode

variable {header : CbFileHeader} {file : ByteStore} {node blank : BtreeNode}

def isInner (node : BtreeNode) : Bool := 0 < node.objCount && !node.isLeaf

def positions (node : BtreeNode) : List UInt8 :=
  if node.isInner then
    (node.children.take (node.objCount + 1)).flatMap fun child => encodeLong child.fpos
  else []

def unread (node : BtreeNode) : List BtreeNode :=
  if node.isInner then
    (node.children.take (node.objCount + 1)).mapIdx fun i child =>
      { create with fpos := child.fpos, childNo := i }
  else []

/-- What the node holds is of the types that a page has for it. -/
structure Typed (node : BtreeNode) : Prop where
  count : node.objCount < 2 ^ 64
  positions : ∀ child ∈ node.children, InLong child.fpos
  address : InLong node.overflowAddress
  pages : node.overflowPageCount < 2 ^ 64

/-- There are children enough for the positions that are written. -/
def Reaches (node : BtreeNode) : Prop := node.isInner = true → node.objCount < node.children.length

private theorem drop_flatMap {children : List BtreeNode} {i : Nat} {child : BtreeNode}
    (hchild : children[i]? = some child) :
    ((children.flatMap fun child => encodeLong child.fpos).drop (8 * i)).take 8 =
      encodeLong child.fpos := by
  induction i generalizing children with
  | zero =>
    cases children with
    | nil => cases hchild
    | cons other rest =>
      cases hchild
      exact List.take_left' (encodeLong_length _)
  | succ i ih =>
    cases children with
    | nil => cases hchild
    | cons other rest =>
      rw [List.flatMap_cons, Nat.mul_succ, Nat.add_comm, ← List.drop_drop,
        List.drop_left' (encodeLong_length _)]
      exact ih hchild

@[simp] private theorem flatMap_length (children : List BtreeNode) :
    (children.flatMap fun child => encodeLong child.fpos).length = 8 * children.length := by
  induction children with
  | nil => rfl
  | cons child rest ih =>
    rw [List.flatMap_cons, List.length_append, encodeLong_length, ih, List.length_cons]
    omega

theorem positions_length (hreaches : node.Reaches) :
    node.positions.length = if node.isInner then 8 * (node.objCount + 1) else 0 := by
  unfold positions
  split_ifs with hinner
  · have hlt := hreaches hinner
    rw [flatMap_length, List.length_take]
    omega
  · rfl

theorem pageHead_eq (node : BtreeNode) : node.pageHead =
    Bytes.encode 1 node.isLeaf.toNat ++ (Bytes.encode 8 node.objCount ++ node.positions) := rfl

@[simp] theorem pageHead_length (node : BtreeNode) :
    node.pageHead.length = 9 + node.positions.length := by
  rw [pageHead_eq, List.length_append, List.length_append, Bytes.encode_length,
    Bytes.encode_length]
  omega

private theorem unread_eq (htyped : node.Typed) (hreaches : node.Reaches)
    (hinner : node.isInner = true) :
    ((List.range (node.objCount + 1)).map fun i =>
      { create with
        fpos := decodeLong ((node.positions.drop (8 * i)).take 8), childNo := i }) =
      node.unread := by
  have hlt := hreaches hinner
  unfold unread positions
  rw [if_pos hinner, if_pos hinner]
  refine List.ext_getElem? fun i => ?_
  rw [List.getElem?_map, List.getElem?_mapIdx]
  by_cases hi : i < node.objCount + 1
  · obtain ⟨child, hchild⟩ : ∃ child, (node.children.take (node.objCount + 1))[i]? = some child :=
      ⟨_, List.getElem?_eq_getElem (by rw [List.length_take]; omega)⟩
    have hmem := List.mem_of_mem_take (List.mem_of_getElem? hchild)
    rw [List.getElem?_range hi, hchild, Option.map_some, Option.map_some, drop_flatMap hchild,
      decodeLong_encodeLong (htyped.positions child hmem)]
  · rw [List.getElem?_eq_none (by rw [List.length_range]; omega),
      List.getElem?_eq_none (by rw [List.length_take]; omega)]
    rfl

theorem unread_fpos (node : BtreeNode) : node.unread.map fpos =
    if node.isInner then (node.children.take (node.objCount + 1)).map fpos else [] := by
  unfold unread
  split_ifs
  · refine List.ext_getElem? fun i => ?_
    rw [List.getElem?_map, List.getElem?_mapIdx, List.getElem?_map, Option.map_map]
    rfl
  · rfl

private theorem head_reads {flag count pages : Nat} {address : Int}
    {positions body page : List UInt8}
    (hcount : count < 2 ^ 64) (hpages : pages < 2 ^ 64)
    (hpage : page = Bytes.encode 1 flag ++ (Bytes.encode 8 count ++ (positions ++
      (encodeLong address ++ (Bytes.encode 8 pages ++ body))))) :
    peek page 0 1 = some (Bytes.encode 1 flag) ∧ peekSize page 1 = some count ∧
      peek page 9 positions.length = some positions ∧
      peek page (9 + positions.length) 8 = some (encodeLong address) ∧
      peekSize page (9 + positions.length + 8) = some pages := by
  have hflag := peek_middle [] (Bytes.encode 1 flag) (Bytes.encode 8 count ++ (positions ++
      (encodeLong address ++ (Bytes.encode 8 pages ++ body))))
  have hsize := peekSize_middle (Bytes.encode 1 flag) (positions ++
      (encodeLong address ++ (Bytes.encode 8 pages ++ body))) hcount
  have hpositions := peek_middle (Bytes.encode 1 flag ++ Bytes.encode 8 count) positions
      (encodeLong address ++ (Bytes.encode 8 pages ++ body))
  have haddress := peek_middle (Bytes.encode 1 flag ++ (Bytes.encode 8 count ++ positions))
    (encodeLong address) (Bytes.encode 8 pages ++ body)
  have harea := peekSize_middle (Bytes.encode 1 flag ++ (Bytes.encode 8 count ++ (positions ++
    encodeLong address))) body hpages
  simp only [List.append_assoc, ← hpage, List.nil_append, List.length_append, List.length_nil,
    Bytes.encode_length, encodeLong_length, ← Nat.add_assoc, Nat.reduceAdd]
    at hflag hsize hpositions haddress harea
  exact ⟨hflag, hsize, hpositions, haddress, harea⟩

/-- `read` finds the node again in its page, as far as its records are found. -/
theorem read_page (htyped : node.Typed) (hreaches : node.Reaches) (hpos : 0 ≤ node.fpos)
    (hnot : blank.isLoaded = false) (hfpos : blank.fpos = node.fpos) (hnone : blank.children = [])
    {page body : List UInt8} (hread : file.read node.fpos.toNat header.pageSize = page)
    (hpage : page = node.pageHead ++
      (encodeLong node.overflowAddress ++ Bytes.encode 8 node.overflowPageCount) ++ body) :
    blank.read header file =
      if node.objCount > header.maxKeys then none
      else (readItems ((fseek node.overflowAddress).map fun pos =>
          file.read pos (header.pageSize * node.overflowPageCount)) node.objCount page
          (node.pageHead.length + 8 + 8) true).map fun items =>
        ({ blank with
          isLeaf := node.isLeaf
          isLoaded := true
          isDirty := false
          overflowAddress := node.overflowAddress
          overflowPageCount := node.overflowPageCount
          items := items
          children := node.unread }, true) := by
  have hseek : fseek blank.fpos = some node.fpos.toNat := by
    rw [hfpos]
    exact if_pos hpos
  have hlength := positions_length hreaches
  simp only [pageHead_eq, List.append_assoc] at hpage
  obtain ⟨hflag, hcount, hpositions, haddress, hpages⟩ :=
    head_reads htyped.count htyped.pages hpage
  have hleaf : decide (Bytes.decode (Bytes.encode 1 node.isLeaf.toNat) = 1) = node.isLeaf := by
    cases node.isLeaf <;> rfl
  rw [pageHead_length]
  unfold read
  rw [hnot, hseek]
  simp only [Bool.false_eq_true, if_false, hread, hflag, hcount, hleaf, Option.bind_eq_bind,
    Option.bind_some]
  have hend : (if (decide (0 < node.objCount) && !node.isLeaf) = true then
      9 + 8 * (node.objCount + 1) else 9) = 9 + node.positions.length := by
    rw [hlength]
    change (if node.isInner = true then _ else _) = _
    split_ifs <;> rfl
  have hchildren : (if (decide (0 < node.objCount) && !node.isLeaf) = true then
      (List.range (node.objCount + 1)).map fun i => { create with
        fpos := decodeLong ((node.positions.drop (8 * i)).take 8), childNo := i }
      else blank.children) = node.unread := by
    change (if node.isInner = true then _ else _) = _
    split_ifs with hinner
    · exact unread_eq htyped hreaches hinner
    · rw [hnone, unread, if_neg hinner]
  simp only [hend, Nat.add_sub_cancel_left, hpositions, haddress, hpages, Option.bind_some,
    decodeLong_encodeLong htyped.address, hchildren]
  refine if_congr Iff.rfl rfl ?_
  exact Option.map_eq_bind.symm

/-- What stands in front of the records. -/
def front (node : BtreeNode) : List UInt8 :=
  node.pageHead ++ (encodeLong node.overflowAddress ++ Bytes.encode 8 node.overflowPageCount)

@[simp] theorem front_length (node : BtreeNode) :
    node.front.length = node.pageHead.length + 8 + 8 := by
  unfold front
  rw [List.length_append, List.length_append, encodeLong_length, Bytes.encode_length,
    Nat.add_assoc]

/-- Where the overflow area comes to be, and the header with it: where it was, if it is large
enough, or else at the end of the file. -/
inductive Area (header : CbFileHeader) (node : BtreeNode) (count : Nat) : CbFileHeader → Int → Prop
  | kept (hpos : 0 ≤ node.overflowAddress) (hle : count ≤ node.overflowPageCount) :
    Area header node count header node.overflowAddress
  | moved (hpos : 0 ≤ toLong header.fileEnd) :
    Area header node count { header with oPages := header.oPages + count }
      (toLong header.fileEnd)

/-- What a write does: the page, and the overflow area if there is one. -/
inductive Writes (header : CbFileHeader) (file : ByteStore) (node : BtreeNode) (buf : PageBuffer) :
    CbFileHeader → ByteStore → BtreeNode → Prop
  | inPage (hnp : buf.np ≤ 1) :
    Writes header file node buf header
      (file.write node.fpos.toNat (padded header.pageSize buf.bytes))
      { node with isDirty := false }
  | spilled (hnp : 2 ≤ buf.np) {header' : CbFileHeader} {address : Int}
    (harea : Area header node (buf.np - 1) header' address) {other : BtreeNode}
    (hother : other = { node with
      isDirty := false, overflowAddress := address, overflowPageCount := buf.np - 1 }) :
    Writes header file node buf header'
      ((file.write node.fpos.toNat
        (other.front ++ (buf.bytes.take header.pageSize).drop node.front.length)).write address.toNat
          (buf.bytes.drop header.pageSize ++
            List.replicate (buf.np * header.pageSize - buf.bytes.length) 0xff))
      other

def opened (node : BtreeNode) : PageBuffer := ⟨node.front, 1, true⟩

private theorem fseek_eq_some {pos : Int} {at_ : Nat} (hseek : fseek pos = some at_) :
    0 ≤ pos ∧ at_ = pos.toNat := by
  unfold fseek at hseek
  split_ifs at hseek with hpos
  exact ⟨hpos, (Option.some.inj hseek).symm⟩

theorem write_cases {header' : CbFileHeader} {file' : ByteStore} {node' : BtreeNode}
    (hwrite : node.write header file = some (header', file', node', true)) :
    0 ≤ node.fpos ∧ node.isLoaded = true ∧ node.Reaches ∧
      node.front.length + 8 ≤ header.pageSize ∧ ∃ buf,
        putItems header.pageSize node.opened node.items = some buf ∧
        Writes header file node buf header' file' node' := by
  unfold write at hwrite
  by_cases hclean : (!node.isDirty || !node.isLoaded) = true
  · rw [if_pos hclean] at hwrite
    cases hwrite
  rw [if_neg hclean] at hwrite
  cases hpos : fseek node.fpos with
  | none =>
    simp only [hpos] at hwrite
    cases hwrite
  | some fpos =>
    simp only [hpos] at hwrite
    split_ifs at hwrite with hchildren hhead
    obtain ⟨buf, hbuf, hrest⟩ := Option.bind_eq_some_iff.mp hwrite
    clear hwrite
    obtain ⟨hfirst, rfl⟩ := fseek_eq_some hpos
    have hloaded : node.isLoaded = true := by
      rw [Bool.or_eq_true, not_or, Bool.not_eq_true', Bool.not_eq_true'] at hclean
      exact Bool.of_not_eq_false hclean.2
    have hreaches : node.Reaches := by
      intro hinner
      change ¬(node.isInner && decide (node.children.length < node.objCount + 1)) = true
        at hchildren
      rw [hinner, Bool.true_and, decide_eq_true_eq] at hchildren
      omega
    have hroom : node.front.length + 8 ≤ header.pageSize := by
      rw [front_length]
      omega
    refine ⟨hfirst, hloaded, hreaches, hroom, buf, hbuf, ?_⟩
    by_cases hnp : buf.np ≤ 1
    · rw [if_pos hnp] at hrest
      cases hrest
      exact .inPage hnp
    rw [if_neg hnp] at hrest
    by_cases hfresh :
        (decide (node.overflowAddress < 0) || decide (node.overflowPageCount < buf.np - 1)) = true
    · simp only [if_pos hfresh] at hrest
      cases hseek : fseek (toLong header.fileEnd) with
      | none =>
        rw [hseek] at hrest
        cases hrest
      | some pos =>
        obtain ⟨harea, rfl⟩ := fseek_eq_some hseek
        rw [hseek] at hrest
        cases hrest
        have hwrites : Writes header file node buf _ _ _ :=
          .spilled (by omega) (.moved harea) rfl
        rw [front_length] at hwrites
        exact hwrites
    · simp only [if_neg hfresh] at hrest
      rw [Bool.or_eq_true, decide_eq_true_eq, decide_eq_true_eq, not_or] at hfresh
      cases hseek : fseek node.overflowAddress with
      | none =>
        rw [hseek] at hrest
        cases hrest
      | some pos =>
        obtain ⟨harea, rfl⟩ := fseek_eq_some hseek
        rw [hseek] at hrest
        cases hrest
        have hwrites : Writes header file node buf _ _ _ :=
          .spilled (by omega) (.kept harea (Nat.le_of_not_lt hfresh.2)) rfl
        rw [front_length] at hwrites
        exact hwrites

private theorem exists_fseek (node : BtreeNode) (buf : PageBuffer)
    (hend : 0 ≤ toLong header.fileEnd) :
    ∃ pos, fseek (if (decide (node.overflowAddress < 0) ||
      decide (node.overflowPageCount < buf.np - 1)) = true then toLong header.fileEnd
      else node.overflowAddress) = some pos := by
  split_ifs with hfresh
  · exact ⟨_, if_pos hend⟩
  · rw [Bool.or_eq_true, decide_eq_true_eq, decide_eq_true_eq, not_or] at hfresh
    exact ⟨_, if_pos (Int.not_lt.mp hfresh.1)⟩

theorem Reaches.enough (hreaches : node.Reaches) :
    ¬(decide (0 < node.objCount) && !node.isLeaf && decide (node.children.length < node.objCount + 1))
      = true := by
  intro hfew
  obtain ⟨hinner, hlt⟩ := Bool.and_eq_true_iff.mp hfew
  have hle := hreaches hinner
  rw [decide_eq_true_eq] at hlt
  omega

theorem exists_write (hdirty : node.isDirty = true) (hloaded : node.isLoaded = true)
    (hpos : 0 ≤ node.fpos) (hreaches : node.Reaches)
    (hroom : node.front.length + 8 ≤ header.pageSize) {buf : PageBuffer}
    (hbuf : putItems header.pageSize node.opened node.items = some buf)
    (hend : 0 ≤ toLong header.fileEnd) :
    ∃ header' file' node', node.write header file = some (header', file', node', true) := by
  have hseek : fseek node.fpos = some node.fpos.toNat := if_pos hpos
  have hhead : ¬node.pageHead.length + 8 + 8 + 8 > header.pageSize := by
    rw [front_length] at hroom
    omega
  unfold opened front at hbuf
  unfold write
  rw [hdirty, hloaded, hseek]
  simp only [Bool.not_true, Bool.or_self, Bool.false_eq_true, if_false,
    if_neg hreaches.enough, if_neg hhead, hbuf, Option.bind_eq_bind, Option.bind_some]
  by_cases hnp : buf.np ≤ 1
  · exact ⟨_, _, _, if_pos hnp⟩
  obtain ⟨pos, hseek'⟩ := exists_fseek node buf hend
  simp only [if_neg hnp, hseek']
  exact ⟨_, _, _, rfl⟩

theorem write_fileEnd_le {header' : CbFileHeader} {file' : ByteStore} {node' : BtreeNode}
    {flag : Bool} (hwrite : node.write header file = some (header', file', node', flag)) :
    header.fileEnd ≤ header'.fileEnd := by
  have hmore : ∀ count : Nat, header.fileEnd ≤
      CbFileHeader.fileEnd { header with oPages := header.oPages + count } := fun count =>
    Nat.add_le_add_left (Nat.mul_le_mul_left _ (Nat.add_le_add_left (Nat.le_add_right _ _) _)) _
  unfold write at hwrite
  by_cases hclean : (!node.isDirty || !node.isLoaded) = true
  · rw [if_pos hclean] at hwrite
    cases hwrite
    exact Nat.le_refl _
  rw [if_neg hclean] at hwrite
  cases hpos : fseek node.fpos with
  | none =>
    simp only [hpos] at hwrite
    cases hwrite
    exact Nat.le_refl _
  | some fpos =>
    simp only [hpos] at hwrite
    split_ifs at hwrite
    obtain ⟨buf, -, hrest⟩ := Option.bind_eq_some_iff.mp hwrite
    clear hwrite
    split at hrest
    · cases hrest
      exact Nat.le_refl _
    · split at hrest
      all_goals
        cases hrest
        split_ifs
        · exact hmore _
        · exact Nat.le_refl _

/-- A write that answers `false` has done nothing, where the end of the file can be reached. -/
theorem write_false {header' : CbFileHeader} {file' : ByteStore} {node' : BtreeNode}
    (hend : 0 ≤ toLong header.fileEnd)
    (hwrite : node.write header file = some (header', file', node', false)) :
    header' = header ∧ file' = file ∧ node' = node := by
  unfold write at hwrite
  by_cases hclean : (!node.isDirty || !node.isLoaded) = true
  · rw [if_pos hclean] at hwrite
    cases hwrite
    exact ⟨rfl, rfl, rfl⟩
  rw [if_neg hclean] at hwrite
  cases hpos : fseek node.fpos with
  | none =>
    simp only [hpos] at hwrite
    cases hwrite
    exact ⟨rfl, rfl, rfl⟩
  | some fpos =>
    simp only [hpos] at hwrite
    split_ifs at hwrite
    obtain ⟨buf, -, hrest⟩ := Option.bind_eq_some_iff.mp hwrite
    clear hwrite
    obtain ⟨pos, hseek⟩ := exists_fseek node buf hend
    simp only [hseek] at hrest
    split_ifs at hrest <;> cases hrest

theorem Writes.onPage {header' : CbFileHeader} {file' : ByteStore} {node' : BtreeNode}
    {buf : PageBuffer} (hwrites : Writes header file node buf header' file' node')
    (hholds : Holds header.pageSize node.front node.items buf)
    (hroom : node.front.length + 8 ≤ header.pageSize)
    (hapart : 2 ≤ buf.np → node'.fpos.toNat + header.pageSize ≤ node'.overflowAddress.toNat ∨
      node'.overflowAddress.toNat + header.pageSize * (buf.np - 1) ≤ node'.fpos.toNat) :
    ∃ page body, file'.read node'.fpos.toNat header.pageSize = page ∧ page = node'.front ++ body ∧
      ((∀ item ∈ node.items, Filled item) →
        readItems ((fseek node'.overflowAddress).map fun pos =>
          file'.read pos (header.pageSize * node'.overflowPageCount)) node.items.length page
          node'.front.length true = some node.items) := by
  cases hwrites with
  | inPage hnp =>
    have hlength := padded_length (hholds.length_le hnp)
    have hread : (file.write node.fpos.toNat (padded header.pageSize buf.bytes)).read
        node.fpos.toNat header.pageSize = padded header.pageSize buf.bytes := by
      have hback := @ByteStore.read_write file node.fpos.toNat (padded header.pageSize buf.bytes)
      rw [hlength] at hback
      exact hback
    obtain ⟨rest, hrest⟩ := hholds.begins
    refine ⟨_, rest ++ List.replicate (header.pageSize - buf.bytes.length) 0, hread, ?_, ?_⟩
    · rw [padded, hrest, List.append_assoc]
      rfl
    · intro hfilled
      have hnone : ∀ area, 2 ≤ buf.np → area = some (buf.bytes.drop header.pageSize ++ []) :=
        fun area htwo => absurd hnp (Nat.not_le_of_lt htwo)
      have hfound := hholds.read hfilled (hnone ((fseek node.overflowAddress).map fun pos =>
        (file.write node.fpos.toNat (padded header.pageSize buf.bytes)).read pos
          (header.pageSize * node.overflowPageCount)))
      rw [List.take_of_length_le (hholds.length_le hnp)] at hfound
      exact hfound
  | @spilled hnp _ address harea other hother =>
    have hsame : node'.front.length = node.front.length := by
      rw [hother, front_length, front_length]
      rfl
    have hfront : node'.front.length ≤ header.pageSize := by omega
    have hholds' := hholds.refront hsame
    have hpage : node'.front ++ (buf.bytes.take header.pageSize).drop node.front.length =
        (node'.front ++ buf.bytes.drop node.front.length).take header.pageSize := by
      rw [List.drop_take, List.take_append, List.take_of_length_le hfront, hsame]
    have hlength := hholds.page_length hnp hsame (hsame ▸ hfront)
    have hsize := hholds.area_length hnp
    have hpos : 0 ≤ address := by cases harea <;> assumption
    have haddress : node'.overflowAddress = address := by rw [hother]
    have hcount : node'.overflowPageCount = buf.np - 1 := by rw [hother]
    have hfpos : node'.fpos = node.fpos := by rw [hother]
    have hseek : fseek address = some address.toNat := if_pos hpos
    have hout := hapart hnp
    rw [haddress, hfpos] at hout
    rw [haddress, hcount, hfpos, hseek, Option.map_some, hpage]
    rw [hpage] at hlength
    have hdrop : (node'.front ++ buf.bytes.drop node.front.length).drop header.pageSize =
        buf.bytes.drop header.pageSize := by
      rw [List.drop_append, List.drop_eq_nil_of_le hfront, List.nil_append, List.drop_drop, hsame,
        Nat.add_sub_cancel' (hsame ▸ hfront)]
    obtain ⟨area, harea⟩ : ∃ area, area = buf.bytes.drop header.pageSize ++
      List.replicate (buf.np * header.pageSize - buf.bytes.length) (0xff : UInt8) := ⟨_, rfl⟩
    obtain ⟨page, hstart⟩ : ∃ page,
      page = (node'.front ++ buf.bytes.drop node.front.length).take header.pageSize := ⟨_, rfl⟩
    rw [← harea] at hsize ⊢
    rw [← hstart] at hlength ⊢
    have hread := @ByteStore.read_write_write file node.fpos.toNat page address.toNat area
    have hread' := @ByteStore.read_write (file.write node.fpos.toNat page) address.toNat area
    rw [hlength, hsize] at hread
    rw [hsize] at hread'
    refine ⟨page, (buf.bytes.drop node.front.length).take (header.pageSize - node'.front.length),
      hread hout, ?_, fun hfilled => ?_⟩
    · rw [hstart, List.take_append, List.take_of_length_le hfront]
    · have hfound : readItems (some area) node.items.length (padded header.pageSize page)
          node'.front.length true = some node.items := by
        rw [hstart]
        exact hholds'.read hfilled fun _ =>
          congrArg some (harea.trans (congrArg (· ++ _) hdrop.symm))
      rw [padded_eq hlength] at hfound
      rw [hread']
      exact hfound

end BtreeNode

end Libsax.Btree
