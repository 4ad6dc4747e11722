import Libsax.Lib.OrderedMap
import Libsax.Btree.Insertion
import Libsax.Btree.Page

/-! `commit`, which `insert` calls at some number of records: the nodes that have changed are written
to their pages, in the order of these, and then the header. The records stay. It ends unless
such a node has more children than its page has room for. -/
namespace Libsax.Btree

open Libsax.Lib
open Libsax.Db (Key Value peek peekSize peek_middle)

/-- An open database: what the nodes refer to, and the root. -/
structure Btreedb where
  store : Store
  root : BtreeNode

/-- What `setBtreeMode` sets, `autoTuning` apart: with it the tree does not stay in memory. -/
structure Mode where
  optimizeNum : Nat
  isDelaySplit : Bool

namespace BtreeNode

def level (node : BtreeNode) : Nat → List (List Nat × BtreeNode)
  | 0 => [([], node)]
  | depth + 1 => (node.level depth).flatMap fun (path, node) =>
    if node.isLeaf then []
    else (node.children.take (node.objCount + 1)).mapIdx fun i child => (path ++ [i], child)

/-- The bytes in front of the records, and a key size. -/
def fixedSize (node : BtreeNode) : Nat := node.pageHead.length + 8 + 8 + 8

end BtreeNode

namespace Btreedb

def writeAt : List Nat → Store → BtreeNode → Option (Store × BtreeNode)
  | [], store, node => do
    let (sfh, file, node, _) ← node.write store.sfh store.file
    some ({ store with sfh := sfh, file := file }, node)
  | i :: path, store, node => do
    let child ← node.children[i]?
    let (store, child) ← writeAt path store child
    some (store, { node with children := node.children.set i child })

/-- The nodes that `_flush` finds to be written, level by level. No way down is longer than there
are pages. -/
def dirtyNodes (db : Btreedb) : List (List Nat × BtreeNode) :=
  ((List.range (db.store.sfh.nPages + 1)).flatMap db.root.level).filter fun entry =>
    entry.2.isLoaded && entry.2.isDirty

/-- `toBeWrited` is ordered by position and keeps the first node of a position. -/
def toBeWrited (db : Btreedb) : Std.TreeMap Int (List Nat) :=
  db.dirtyNodes.foldl (fun nodes entry => nodes.insertIfNew entry.2.fpos entry.1) ∅

def flush (db : Btreedb) : Option (Store × BtreeNode) :=
  db.toBeWrited.toList.foldlM (fun out item => writeAt item.2 out.1 out.2) (db.store, db.root)

/-- `commit`, of which `none` is an assertion of `write` that fails. -/
def commit (db : Btreedb) : Option Btreedb := do
  let (store, root) ← db.flush
  let sfh := { store.sfh with rootPos := root.fpos }
  some ⟨{ store with sfh := sfh, file := sfh.toFile store.file }, root⟩

/-- `optimize_` without `autoTuning`. -/
def optimize (db : Btreedb) : Option Btreedb := do
  let db ← db.commit
  let pfactor := db.store.sfh.oPages / db.store.sfh.nPages + 1
  let sfh := { db.store.sfh with cacheSize := db.store.sfh.cacheSize / pfactor }
  some { db with store := { db.store with sfh := sfh } }

def tune (mode : Mode) (db : Btreedb) : Option Btreedb :=
  if db.store.sfh.numItems = mode.optimizeNum then db.optimize else some db

def Fitting (db : Btreedb) : Prop :=
  ∀ entry ∈ db.dirtyNodes, entry.2.fixedSize ≤ db.store.sfh.pageSize

instance (db : Btreedb) : Decidable db.Fitting :=
  inferInstanceAs (Decidable (∀ entry ∈ db.dirtyNodes, _))

end Btreedb

variable {maxKeys height least : Nat} {header header' : CbFileHeader} {file file' : ByteStore}
  {store store' : Store} {node node' child : BtreeNode} {path : List Nat} {db next : Btreedb}

/-- The nodes differ at most in what is known of their pages. -/
structure SameRecords (node other : BtreeNode) : Prop where
  isLeaf : other.isLeaf = node.isLeaf
  isLoaded : other.isLoaded = node.isLoaded
  childNo : other.childNo = node.childNo
  items : other.items = node.items
  children : other.children = node.children

/-- The headers differ at most in the position of the root, the size of the cache and the number
of overflow pages. -/
structure SameCounts (header other : CbFileHeader) : Prop where
  maxKeys : other.maxKeys = header.maxKeys
  pageSize : other.pageSize = header.pageSize
  numItems : other.numItems = header.numItems
  nPages : other.nPages = header.nPages

theorem SameCounts.refl (header : CbFileHeader) : SameCounts header header := ⟨rfl, rfl, rfl, rfl⟩

theorem SameCounts.trans {last : CbFileHeader} (hfirst : SameCounts header header')
    (hsecond : SameCounts header' last) : SameCounts header last :=
  ⟨hsecond.maxKeys.trans hfirst.maxKeys, hsecond.pageSize.trans hfirst.pageSize,
    hsecond.numItems.trans hfirst.numItems, hsecond.nPages.trans hfirst.nPages⟩

private theorem write_same {written : Bool}
    (hwrite : node.write header file = some (header', file', node', written)) :
    SameRecords node node' ∧ SameCounts header header' := by
  unfold BtreeNode.write at hwrite
  by_cases hclean : (!node.isDirty || !node.isLoaded) = true
  · rw [if_pos hclean] at hwrite
    cases hwrite
    exact ⟨⟨rfl, rfl, rfl, rfl, rfl⟩, .refl _⟩
  rw [if_neg hclean] at hwrite
  cases hpos : fseek node.fpos with
  | none =>
    simp only [hpos] at hwrite
    cases hwrite
    exact ⟨⟨rfl, rfl, rfl, rfl, rfl⟩, .refl _⟩
  | some fpos =>
    simp only [hpos] at hwrite
    split_ifs at hwrite
    obtain ⟨buf, -, hrest⟩ := Option.bind_eq_some_iff.mp hwrite
    clear hwrite
    split at hrest
    · cases hrest
      exact ⟨⟨rfl, rfl, rfl, rfl, rfl⟩, .refl _⟩
    · split at hrest
      all_goals
        cases hrest
        refine ⟨⟨rfl, rfl, rfl, rfl, rfl⟩, ?_⟩
        split_ifs <;> exact ⟨rfl, rfl, rfl, rfl⟩

/-- A tree in memory after a write: with the records it had. -/
structure Rewritten (maxKeys height least : Nat) (store : Store) (node : BtreeNode)
    (store' : Store) (node' : BtreeNode) : Prop where
  shape : Shape (View.memory maxKeys) height least node'
  same : inorder (View.memory maxKeys) height node' = inorder (View.memory maxKeys) height node
  childNo : node'.childNo = node.childNo
  counts : SameCounts store.sfh store'.sfh
  narrow : Narrow (View.memory maxKeys) height node → Narrow (View.memory maxKeys) height node'

private theorem narrow_of_same (hsame : SameRecords node node')
    (hnarrow : Narrow (View.memory maxKeys) height node) :
    Narrow (View.memory maxKeys) height node' := by
  have hcount : node'.objCount = node.objCount := congrArg List.length hsame.items
  cases height with
  | zero => exact Nat.le_trans (Nat.le_of_eq hcount) hnarrow
  | succ height =>
    refine ⟨Nat.le_trans (Nat.le_of_eq hcount) hnarrow.1, fun child hchild => ?_⟩
    have hmem : child ∈ node.children := hsame.children ▸ hchild
    exact hnarrow.2 child hmem

theorem writeAt_rewritten {path : List Nat}
    (hwrite : Btreedb.writeAt path store node = some (store', node'))
    (hshape : Shape (View.memory maxKeys) height least node) :
    Rewritten maxKeys height least store node store' node' := by
  induction path generalizing height least store node store' node' with
  | nil =>
    obtain ⟨⟨sfh, file, other, written⟩, hother, hresult⟩ := Option.bind_eq_some_iff.mp hwrite
    cases hresult
    obtain ⟨hsame, hcounts⟩ := write_same hother
    exact ⟨hshape.congr hsame.isLoaded hsame.isLeaf hsame.items hsame.children,
      inorder_congr hsame.items hsame.children, hsame.childNo, hcounts, narrow_of_same hsame⟩
  | cons i path ih =>
    obtain ⟨child, hchild, hrest⟩ := Option.bind_eq_some_iff.mp hwrite
    obtain ⟨⟨store'', child'⟩, hbelow, hresult⟩ := Option.bind_eq_some_iff.mp hrest
    cases hresult
    cases height with
    | zero =>
      have hnone : node.children = [] := hshape.1.childless
      rw [hnone] at hchild
      cases hchild
    | succ height =>
      have hbranch : Branch (Under (View.memory maxKeys) height) node := hshape.1
      have hfanout := hbranch.fanout
      obtain ⟨hlt, -⟩ := List.getElem?_eq_some_iff.mp hchild
      obtain ⟨left, other, right, front, back, hwindow⟩ :=
        hbranch.window_one (show i ≤ node.objCount by omega)
      obtain rfl : other = child := Option.some.inj (hwindow.child_eq.symm.trans hchild)
      have hunder := hbranch.below other (hwindow.mem List.mem_cons_self)
      have hbelow := ih hbelow hunder.2
      have hnumber := (numbered_cons.mp (hwindow.numbered_mid hbranch)).1
      rw [hwindow.set_child]
      have hwindow' : Window { node with children := left ++ [child'] ++ right } i left [child']
          right front [] back := hwindow.replace rfl hwindow.items rfl rfl
      refine ⟨⟨hwindow.branch_same hbranch hwindow' hbranch.loaded hbranch.inner ?_
        (numbered_cons.mpr ⟨hbelow.childNo.trans hnumber, numbered_nil _⟩) rfl, hshape.2⟩, ?_, rfl,
        hbelow.counts, ?_⟩
      · intro child hmem
        rw [List.mem_singleton.mp hmem]
        exact ⟨trivial, hbelow.shape⟩
      · refine hwindow.same hwindow' rfl rfl rfl ?_
        rw [List.map_singleton, List.map_singleton, weave_one, weave_one, hbelow.same]
      · rintro ⟨hfew, hchildren⟩
        refine ⟨hfew, fun child hmem => ?_⟩
        have hold : ∀ child ∈ left ++ [other] ++ right,
            Narrow (View.memory maxKeys) height child := hwindow.children ▸ hchildren
        simp only [List.forall_mem_append, List.forall_mem_singleton] at hold
        rcases List.mem_append.mp hmem with hfront | hback
        · rcases List.mem_append.mp hfront with hleft | hchild
          · exact hold.1.1 child hleft
          · rw [List.mem_singleton.mp hchild]
            exact hbelow.narrow hold.1.2
        · exact hold.2 child hback

theorem Rewritten.refl (hshape : Shape (View.memory maxKeys) height least node) :
    Rewritten maxKeys height least store node store node := ⟨hshape, rfl, rfl, .refl _, id⟩

theorem Rewritten.trans {last : Store} {end_ : BtreeNode}
    (hfirst : Rewritten maxKeys height least store node store' node')
    (hsecond : Rewritten maxKeys height least store' node' last end_) :
    Rewritten maxKeys height least store node last end_ :=
  ⟨hsecond.shape, hsecond.same.trans hfirst.same, hsecond.childNo.trans hfirst.childNo,
    hfirst.counts.trans hsecond.counts, hsecond.narrow ∘ hfirst.narrow⟩

private theorem writes_rewritten {items : List (Int × List Nat)}
    (hwrites : items.foldlM (fun out item => Btreedb.writeAt item.2 out.1 out.2) (store, node) =
      some (store', node'))
    (hshape : Shape (View.memory maxKeys) height least node) :
    Rewritten maxKeys height least store node store' node' := by
  induction items generalizing store node with
  | nil =>
    cases hwrites
    exact .refl hshape
  | cons item rest ih =>
    obtain ⟨⟨next, root⟩, hwrite, hrest⟩ := Option.bind_eq_some_iff.mp hwrites
    have hfirst := writeAt_rewritten hwrite hshape
    exact hfirst.trans (ih hrest hfirst.shape)

theorem Btreedb.commit_rewritten (hcommit : db.commit = some next)
    (hshape : Shape (View.memory maxKeys) height least db.root) :
    Rewritten maxKeys height least db.store db.root next.store next.root := by
  obtain ⟨⟨store, root⟩, hflush, hresult⟩ := Option.bind_eq_some_iff.mp hcommit
  cases hresult
  have hrewritten := writes_rewritten hflush hshape
  have hcounts := hrewritten.counts
  exact ⟨hrewritten.shape, hrewritten.same, hrewritten.childNo,
    ⟨hcounts.maxKeys, hcounts.pageSize, hcounts.numItems, hcounts.nPages⟩, hrewritten.narrow⟩

theorem Btreedb.tune_rewritten {mode : Mode} (htune : db.tune mode = some next)
    (hshape : Shape (View.memory maxKeys) height least db.root) :
    Rewritten maxKeys height least db.store db.root next.store next.root := by
  unfold tune at htune
  split_ifs at htune with htuned
  · obtain ⟨other, hcommit, hresult⟩ := Option.bind_eq_some_iff.mp htune
    cases hresult
    have hrewritten := commit_rewritten hcommit hshape
    have hcounts := hrewritten.counts
    exact ⟨hrewritten.shape, hrewritten.same, hrewritten.childNo,
      ⟨hcounts.maxKeys, hcounts.pageSize, hcounts.numItems, hcounts.nPages⟩, hrewritten.narrow⟩
  · cases htune
    exact .refl hshape

def BtreeNode.follow : List Nat → BtreeNode → Option BtreeNode
  | [], node => some node
  | i :: path, node => do follow path (← node.children[i]?)

private theorem follow_concat {i : Nat} (hfollow : node.follow path = some node')
    (hchild : node'.children[i]? = some child) : node.follow (path ++ [i]) = some child := by
  induction path generalizing node with
  | nil =>
    cases hfollow
    rw [List.nil_append, BtreeNode.follow, hchild]
    rfl
  | cons j path ih =>
    obtain ⟨other, hother, hrest⟩ := Option.bind_eq_some_iff.mp hfollow
    rw [List.cons_append, BtreeNode.follow, hother]
    exact ih hrest

private theorem follow_of_mem_level {depth : Nat} (hmem : (path, child) ∈ node.level depth) :
    node.follow path = some child := by
  induction depth generalizing path child with
  | zero =>
    cases List.mem_singleton.mp hmem
    rfl
  | succ depth ih =>
    obtain ⟨⟨above, parent⟩, habove, hbelow⟩ := List.mem_flatMap.mp hmem
    dsimp only at hbelow
    split_ifs at hbelow with hleaf
    · cases hbelow
    · obtain ⟨i, hi, hentry⟩ := List.mem_mapIdx.mp hbelow
      cases hentry
      refine follow_concat (ih habove) ?_
      rw [List.getElem_take]
      exact List.getElem?_eq_getElem _

theorem Shape.follow (hshape : Shape (View.memory maxKeys) height least node)
    (hfollow : node.follow path = some child) :
    ∃ height' least', Shape (View.memory maxKeys) height' least' child ∧
      ∀ item ∈ child.items, item ∈ inorder (View.memory maxKeys) height node := by
  induction path generalizing height least node with
  | nil =>
    cases hfollow
    exact ⟨height, least, hshape, fun item hitem => mem_inorder_of_mem_items rfl hitem⟩
  | cons i path ih =>
    obtain ⟨other, hother, hrest⟩ := Option.bind_eq_some_iff.mp hfollow
    cases height with
    | zero =>
      have hnone : node.children = [] := hshape.1.childless
      rw [hnone] at hother
      cases hother
    | succ height =>
      have hbranch : Branch (Under (View.memory maxKeys) height) node := hshape.1
      have hmem := List.mem_of_getElem? hother
      obtain ⟨height', least', hchild, hitems⟩ := ih (hbranch.below other hmem).2 hrest
      refine ⟨height', least', hchild, fun item hitem => ?_⟩
      exact mem_weave_of_mem_part (List.mem_map_of_mem hmem) (hitems item hitem)

/-- What an assertion of `write`, and its walk over children and values, asks of a node. -/
structure Storable (pageSize : Nat) (node : BtreeNode) : Prop where
  reaches : node.Reaches
  room : node.fixedSize ≤ pageSize
  whole : ∀ item ∈ node.items, Whole item

/-- The nodes differ at most in what is known of pages, their own and those of the children. -/
structure SameRoom (node other : BtreeNode) : Prop where
  isLeaf : other.isLeaf = node.isLeaf
  items : other.items = node.items
  children : other.children.length = node.children.length

theorem SameRoom.refl (node : BtreeNode) : SameRoom node node := ⟨rfl, rfl, rfl⟩

private theorem sameRoom_refl : (node : Option BtreeNode) → Option.Rel SameRoom node node
  | none => .none
  | some node => .some (.refl node)

theorem SameRoom.trans {last : BtreeNode} (hfirst : SameRoom node node')
    (hsecond : SameRoom node' last) : SameRoom node last :=
  ⟨hsecond.isLeaf.trans hfirst.isLeaf, hsecond.items.trans hfirst.items,
    hsecond.children.trans hfirst.children⟩

theorem SameRoom.storable {pageSize : Nat} (hsame : SameRoom node node')
    (hstorable : Storable pageSize node) : Storable pageSize node' := by
  have hcount : node'.objCount = node.objCount := congrArg List.length hsame.items
  have hinner : node'.isInner = node.isInner := by
    unfold BtreeNode.isInner
    rw [hcount, hsame.isLeaf]
  have hreaches : node'.Reaches := by
    intro hinner'
    rw [hcount, hsame.children]
    exact hstorable.reaches (hinner ▸ hinner')
  refine ⟨hreaches, ?_, by rw [hsame.items]; exact hstorable.whole⟩
  have hroom := hstorable.room
  unfold BtreeNode.fixedSize at hroom ⊢
  rw [BtreeNode.pageHead_length, BtreeNode.positions_length hstorable.reaches] at hroom
  rw [BtreeNode.pageHead_length, BtreeNode.positions_length hreaches, hinner, hcount]
  exact hroom

private theorem write_goes (hstorable : Storable header.pageSize node) (file : ByteStore) :
    ∃ out, node.write header file = some out := by
  have hroom : node.front.length + 8 ≤ header.pageSize := by
    rw [BtreeNode.front_length]
    exact hstorable.room
  obtain ⟨buf, hbuf, -⟩ := (Holds.opened hroom).putItems hstorable.whole
  unfold BtreeNode.front at hbuf
  have hhead : ¬node.pageHead.length + 8 + 8 + 8 > header.pageSize :=
    Nat.not_lt.mpr hstorable.room
  unfold BtreeNode.write
  by_cases hclean : (!node.isDirty || !node.isLoaded) = true
  · rw [if_pos hclean]
    exact ⟨_, rfl⟩
  rw [if_neg hclean]
  cases fseek node.fpos with
  | none => exact ⟨_, rfl⟩
  | some fpos =>
    simp only [if_neg (BtreeNode.Reaches.enough hstorable.reaches), if_neg hhead, hbuf,
      Option.bind_eq_bind, Option.bind_some]
    split
    · exact ⟨_, rfl⟩
    · split <;> exact ⟨_, rfl⟩

private theorem writeAt_goes (hfollow : node.follow path = some child)
    (hstorable : Storable store.sfh.pageSize child) :
    ∃ out, Btreedb.writeAt path store node = some out := by
  induction path generalizing node with
  | nil =>
    cases hfollow
    obtain ⟨⟨sfh, file, other, written⟩, hwrite⟩ := write_goes hstorable store.file
    rw [Btreedb.writeAt, hwrite]
    exact ⟨_, rfl⟩
  | cons i path ih =>
    obtain ⟨other, hother, hrest⟩ := Option.bind_eq_some_iff.mp hfollow
    obtain ⟨⟨store', other'⟩, hwrite⟩ := ih hrest
    rw [Btreedb.writeAt, hother, Option.bind_eq_bind, Option.bind_some, hwrite]
    exact ⟨_, rfl⟩

private theorem writeAt_follow (hwrite : Btreedb.writeAt path store node = some (store', node'))
    (way : List Nat) : Option.Rel SameRoom (node.follow way) (node'.follow way) := by
  induction path generalizing store node store' node' way with
  | nil =>
    obtain ⟨⟨sfh, file, other, written⟩, hother, hresult⟩ := Option.bind_eq_some_iff.mp hwrite
    cases hresult
    obtain ⟨hsame, -⟩ := write_same hother
    cases way with
    | nil => exact .some ⟨hsame.isLeaf, hsame.items, congrArg List.length hsame.children⟩
    | cons j way =>
      rw [BtreeNode.follow, BtreeNode.follow, hsame.children]
      exact sameRoom_refl _
  | cons i path ih =>
    obtain ⟨below, hbelow, hrest⟩ := Option.bind_eq_some_iff.mp hwrite
    obtain ⟨⟨store'', below'⟩, hwritten, hresult⟩ := Option.bind_eq_some_iff.mp hrest
    cases hresult
    obtain ⟨hlt, -⟩ := List.getElem?_eq_some_iff.mp hbelow
    cases way with
    | nil => exact .some ⟨rfl, rfl, List.length_set⟩
    | cons j way =>
      rw [BtreeNode.follow, BtreeNode.follow]
      by_cases hsame : i = j
      · subst hsame
        rw [List.getElem?_set_self hlt, hbelow]
        exact ih hwritten way
      · rw [List.getElem?_set_ne hsame]
        exact sameRoom_refl _

private theorem sameRoom_trans {first second third : Option BtreeNode}
    (hfirst : Option.Rel SameRoom first second)
    (hsecond : Option.Rel SameRoom second third) : Option.Rel SameRoom first third := by
  cases hfirst with
  | none => exact hsecond
  | some hsame =>
    cases hsecond with
    | some hsame' => exact .some (hsame.trans hsame')

private theorem writes_follow {items : List (Int × List Nat)}
    (hwrites : items.foldlM (fun out item => Btreedb.writeAt item.2 out.1 out.2) (store, node) =
      some (store', node')) (way : List Nat) :
    Option.Rel SameRoom (node.follow way) (node'.follow way) := by
  induction items generalizing store node with
  | nil =>
    cases hwrites
    exact sameRoom_refl _
  | cons item rest ih =>
    obtain ⟨⟨next, root⟩, hwrite, hrest⟩ := Option.bind_eq_some_iff.mp hwrites
    exact sameRoom_trans (writeAt_follow hwrite way) (ih hrest)

theorem Btreedb.tune_follow {mode : Mode} (htune : db.tune mode = some next) (way : List Nat) :
    Option.Rel SameRoom (db.root.follow way) (next.root.follow way) := by
  unfold tune at htune
  split_ifs at htune with htuned
  · obtain ⟨other, hcommit, hresult⟩ := Option.bind_eq_some_iff.mp htune
    cases hresult
    obtain ⟨⟨store, root⟩, hflush, hresult⟩ := Option.bind_eq_some_iff.mp hcommit
    cases hresult
    exact writes_follow hflush way
  · cases htune
    exact sameRoom_refl _

theorem Btreedb.tune_root {mode : Mode} (htune : db.tune mode = some next) :
    SameRoom db.root next.root := by
  cases tune_follow htune [] with
  | some hsame => exact hsame

private theorem writes_go {items : List (Int × List Nat)}
    (hall : ∀ item ∈ items, ∃ child,
      node.follow item.2 = some child ∧ Storable store.sfh.pageSize child)
    (hshape : Shape (View.memory maxKeys) height least node) :
    ∃ out, items.foldlM (fun out item => Btreedb.writeAt item.2 out.1 out.2) (store, node) =
      some out := by
  induction items generalizing store node with
  | nil => exact ⟨_, rfl⟩
  | cons item rest ih =>
    obtain ⟨⟨child, hfollow, hstorable⟩, hrest⟩ := List.forall_mem_cons.mp hall
    obtain ⟨⟨store', node'⟩, hwrite⟩ := writeAt_goes hfollow hstorable
    have hrewritten := writeAt_rewritten hwrite hshape
    rw [List.foldlM_cons, hwrite]
    refine ih (fun other hother => ?_) hrewritten.shape
    obtain ⟨child, hfollow, hstorable⟩ := hrest other hother
    have hsame := writeAt_follow hwrite other.2
    rw [hfollow] at hsame
    cases hfollow' : node'.follow other.2 with
    | none =>
      rw [hfollow'] at hsame
      cases hsame
    | some child' =>
      rw [hfollow'] at hsame
      cases hsame with
      | some hroom =>
        refine ⟨child', rfl, ?_⟩
        rw [hrewritten.counts.pageSize]
        exact hroom.storable hstorable

theorem whole_cell (key : Key) (value : Value) : Whole (key, cell value) := by
  have hsize : peekSize (Bytes.encode 8 value.length ++ value) 0 =
      some (value.length % 256 ^ 8) := by
    have hfirst := peek_middle [] (Bytes.encode 8 value.length) value
    rw [List.nil_append, List.length_nil, Bytes.encode_length] at hfirst
    rw [peekSize, hfirst, Option.map_some, Bytes.decode_encode]
  have hle := Nat.mod_le value.length (256 ^ 8)
  have hroom : 0 + (value.length % 256 ^ 8 + 8) ≤ (Bytes.encode 8 value.length ++ value).length := by
    rw [List.length_append, Bytes.encode_length]
    omega
  unfold Whole written cell
  simp only [Option.bind_eq_bind, Option.bind_some, hsize]
  rw [peek, if_pos hroom]
  rfl

theorem Shape.reaches (hshape : Shape (View.memory maxKeys) height least node) : node.Reaches := by
  intro hinner
  cases height with
  | zero =>
    have hleaf : node.isLeaf = true := hshape.1.leaf
    unfold BtreeNode.isInner at hinner
    rw [hleaf, Bool.not_true, Bool.and_false] at hinner
    cases hinner
  | succ height =>
    have hbranch : Branch (Under (View.memory maxKeys) height) node := hshape.1
    exact Nat.lt_of_lt_of_eq (Nat.lt_succ_self _) hbranch.fanout.symm

namespace Btreedb

theorem follow_of_mem_dirtyNodes (hmem : (path, child) ∈ db.dirtyNodes) :
    db.root.follow path = some child := by
  unfold dirtyNodes at hmem
  rw [List.mem_filter, List.mem_flatMap] at hmem
  obtain ⟨⟨depth, -, hlevel⟩, -⟩ := hmem
  exact follow_of_mem_level hlevel

theorem mem_toBeWrited {fpos : Int} (hmem : (fpos, path) ∈ db.toBeWrited.toList) :
    ∃ child, (path, child) ∈ db.dirtyNodes := by
  obtain ⟨⟨_, child⟩, hdirty, -, rfl⟩ := mem_of_foldl_insertIfNew
    (fun entry : List Nat × BtreeNode => entry.2.fpos) Prod.fst hmem
  exact ⟨child, hdirty⟩

private theorem commit_goes (hshape : Shape (View.memory maxKeys) height least db.root)
    (hwhole : ∀ item ∈ inorder (View.memory maxKeys) height db.root, Whole item)
    (hfitting : db.Fitting) : ∃ next, db.commit = some next := by
  have hall : ∀ item ∈ db.toBeWrited.toList, ∃ child,
      db.root.follow item.2 = some child ∧ Storable db.store.sfh.pageSize child := by
    rintro ⟨fpos, path⟩ hitem
    obtain ⟨child, hdirty⟩ := mem_toBeWrited hitem
    have hfollow := follow_of_mem_dirtyNodes hdirty
    obtain ⟨height', least', hchild, hitems⟩ := hshape.follow hfollow
    have hroom := hfitting (path, child) hdirty
    exact ⟨child, hfollow, hchild.reaches, hroom,
      fun item hmem => hwhole item (hitems item hmem)⟩
  obtain ⟨out, hflush⟩ := writes_go hall hshape
  unfold commit flush
  rw [hflush]
  exact ⟨_, rfl⟩

theorem tune_goes (mode : Mode) (hshape : Shape (View.memory maxKeys) height least db.root)
    (hwhole : ∀ item ∈ inorder (View.memory maxKeys) height db.root, Whole item)
    (hfitting : db.store.sfh.numItems = mode.optimizeNum → db.Fitting) :
    ∃ next, db.tune mode = some next := by
  unfold tune optimize
  split_ifs with htuned
  · obtain ⟨next, hcommit⟩ := commit_goes hshape hwhole (hfitting htuned)
    rw [hcommit]
    exact ⟨_, rfl⟩
  · exact ⟨_, rfl⟩

end Btreedb

theorem Btreedb.tune_eq_none {mode : Mode} : db.tune mode = none ↔
    db.store.sfh.numItems = mode.optimizeNum ∧ db.commit = none := by
  unfold tune optimize
  split_ifs with htuned
  · rw [Option.bind_eq_bind, Option.bind_eq_none_iff]
    refine ⟨fun hnone => ⟨htuned, ?_⟩, fun hnone next hcommit => ?_⟩
    · exact Option.eq_none_iff_forall_ne_some.mpr fun next hcommit => nomatch hnone next hcommit
    · rw [hnone.2] at hcommit
      cases hcommit
  · exact iff_of_false not_false fun hboth => htuned hboth.1

private theorem writeAt_active (path : List Nat) (store : Store) (node : BtreeNode)
    (activeNodeNum : Nat) :
    Btreedb.writeAt path { store with activeNodeNum := activeNodeNum } node =
      (Btreedb.writeAt path store node).map fun out =>
        ({ out.1 with activeNodeNum := activeNodeNum }, out.2) := by
  induction path generalizing node with
  | nil =>
    unfold Btreedb.writeAt
    cases node.write store.sfh store.file <;> rfl
  | cons i path ih =>
    unfold Btreedb.writeAt
    cases node.children[i]? with
    | none => rfl
    | some child =>
      simp only [Option.bind_eq_bind, Option.bind_some, ih]
      cases Btreedb.writeAt path store child <;> rfl

private theorem writes_active (items : List (Int × List Nat)) (store : Store) (node : BtreeNode)
    (activeNodeNum : Nat) :
    items.foldlM (fun out item => Btreedb.writeAt item.2 out.1 out.2)
        ({ store with activeNodeNum := activeNodeNum }, node) =
      (items.foldlM (fun out item => Btreedb.writeAt item.2 out.1 out.2) (store, node)).map
        fun out => ({ out.1 with activeNodeNum := activeNodeNum }, out.2) := by
  induction items generalizing store node with
  | nil => rfl
  | cons item rest ih =>
    rw [List.foldlM_cons, List.foldlM_cons, writeAt_active]
    cases Btreedb.writeAt item.2 store node with
    | none => rfl
    | some out => exact ih out.1 out.2

theorem Btreedb.tune_active (mode : Mode) (db : Btreedb) (activeNodeNum : Nat) :
    Btreedb.tune mode { db with store := { db.store with activeNodeNum := activeNodeNum } } =
      (db.tune mode).map fun next =>
        { next with store := { next.store with activeNodeNum := activeNodeNum } } := by
  have hflush : Btreedb.flush { db with store := { db.store with activeNodeNum := activeNodeNum } } =
      db.flush.map fun out => ({ out.1 with activeNodeNum := activeNodeNum }, out.2) :=
    writes_active _ _ _ _
  unfold tune optimize commit
  rw [hflush]
  dsimp only
  split_ifs
  · cases db.flush <;> rfl
  · rfl

end Libsax.Btree
