import Libsax.Btree.Place
import Libsax.Btree.Btreedb

/-! Cursors: a place in the tree with a position in its node. A cursor moves to the next or the
previous record, and one without a node to the first or the last. -/
namespace Libsax.Btree

open Libsax.Lib
open Libsax.Db (Key Value)

/-- A `Cursor`. Its node may be `NULL`. -/
structure Cursor where
  place : Option Place
  pos : Nat

def Cursor.create : Cursor := ⟨none, 0⟩

def pred (size : Nat) : Nat := (size + 2 ^ 64 - 1) % 2 ^ 64

def Cursor.item (locn : Cursor) : Option Item := do (← locn.place).node.items[locn.pos]?

def loadFrom : Nat → Nat → Store → BtreeNode → Option (Store × BtreeNode)
  | 0, _, store, node => some (store, node)
  | count + 1, i, store, node => do
    let (store, node) ← loadChild store node i
    loadFrom count (i + 1) store node

/-- The loops that load all children of a parent but the first. Their counter is an `unsigned
int`, which does not get beyond as many records as it can count. -/
def prefetch (store : Store) (parent : BtreeNode) : Option (Store × BtreeNode) :=
  if parent.objCount < 2 ^ 32 - 1 then loadFrom parent.objCount 1 store parent else none

def seqNext (depth : Nat) (store : Store) (root : BtreeNode) (locn : Cursor) :
    Option (Store × Cursor × Bool) :=
  match locn.place with
  | none => do
    let (store, leaf) ← (⟨root, []⟩ : Place).descend (fun _ => 0) depth store
    match leaf.above with
    -- the parent is not looked at for being `NULL`
    | [] => none
    | parent :: above => do
      let (store, parent) ← prefetch store parent
      some (store, ⟨some ⟨leaf.node, parent :: above⟩, 0⟩, true)
  | some place =>
    let past := ⟨some place, (locn.pos + 1) % 2 ^ 64⟩
    if place.node.isLeaf then
      if locn.pos < pred place.node.objCount then some (store, past, true)
      else if locn.pos = pred place.node.objCount then
        match Place.climbNext place.node.childNo place.above with
        | some (parent, childNo) => some (store, ⟨some parent, childNo⟩, true)
        | none => some (store, past, false)
      else some (store, past, false)
    else do
      let (store, child) ← place.child store (locn.pos + 1)
      let (store, leaf) ← child.descend (fun _ => 0) depth store
      match leaf.above with
      | [] => some (store, ⟨some leaf, 0⟩, true)
      | parent :: above => do
        let (store, parent) ← prefetch store parent
        some (store, ⟨some ⟨leaf.node, parent :: above⟩, 0⟩, true)

/-- `_seqPrev`. -/
def seqPrev (depth : Nat) (store : Store) (root : BtreeNode) (locn : Cursor) :
    Option (Store × Cursor × Bool) :=
  match locn.place with
  | none => do
    let (store, leaf) ← (⟨root, []⟩ : Place).descend BtreeNode.objCount depth store
    let pos := pred leaf.node.objCount
    some (store, ⟨some leaf, pos⟩, decide (pos ≠ 2 ^ 64 - 1))
  | some place =>
    if place.node.isLeaf then
      if locn.pos > 0 then some (store, ⟨some place, locn.pos - 1⟩, true)
      else
        match Place.climbPrev place.node.childNo place.above with
        | some (parent, childNo) => some (store, ⟨some parent, childNo - 1⟩, true)
        | none => some (store, ⟨some place, 2 ^ 64 - 1⟩, false)
    else do
      let (store, child) ← place.child store locn.pos
      let (store, leaf) ← child.descend BtreeNode.objCount depth store
      some (store, ⟨some leaf, pred leaf.node.objCount⟩, true)

namespace Btreedb

/-- `seq_`, with no way down longer than there are pages. What is loaded on the way is known to
the cursor. -/
def seq_ (db : Btreedb) (locn : Cursor) (sdir : Bool) : Option (Btreedb × Cursor × Bool) :=
  if db.store.sfh.numItems = 0 then some (db, locn, false)
  else do
    let move := if sdir then seqNext else seqPrev
    let (store, locn, more) ← move (db.store.sfh.nPages + 1) db.store db.root locn
    some ({ db with store := store }, locn, more)

def getFirstLocn (db : Btreedb) : Option (Btreedb × Cursor) := do
  let (store, leaf) ←
    (⟨db.root, []⟩ : Place).descend (fun _ => 0) (db.store.sfh.nPages + 1) db.store
  some ({ db with store := store }, ⟨some leaf, 0⟩)

def getLastLocn (db : Btreedb) : Option (Btreedb × Cursor) := do
  let (store, leaf) ←
    (⟨db.root, []⟩ : Place).descend BtreeNode.objCount (db.store.sfh.nPages + 1) db.store
  some ({ db with store := store }, ⟨some leaf, pred leaf.node.objCount⟩)

end Btreedb

variable {view : View} {store : Store} {place : Place} {node parent root : BtreeNode}
  {height least i count depth levels : Nat} {left right above : List BtreeNode} {item next : Item}
  {before after front back items : List Item}

theorem pred_eq {size : Nat} (hpos : 0 < size) (hlt : size < 2 ^ 64) : pred size = size - 1 := by
  unfold pred
  omega

/-- As many records as a node has in a tree that calls with defined results have built. -/
def few : Nat := 2 ^ 31 + 1

private theorem loadFrom_loads {below : BtreeNode → Prop} (hfits : view.Fits store)
    (hcongr : ∀ {child child'}, view.load child = view.load child' → below child' → below child)
    (hbelow : ∀ child, below child → (view.load child).isLoaded = true)
    (hbranch : Branch below node) (hle : i + count ≤ node.objCount + 1) : ∃ store' node',
    loadFrom count i store node = some (store', node') ∧ store.Stays store' ∧
      Loads view node node' := by
  induction count generalizing i store node with
  | zero => exact ⟨store, node, rfl, Store.Stays.refl store, Loads.refl view node⟩
  | succ count ih =>
    obtain ⟨store', node', child, hcall, hstays, hloads, -, -⟩ :=
      loadChild_loads hfits hbranch hbelow (show i ≤ node.objCount by omega)
    obtain ⟨store'', node'', hrest, hstays', hloads'⟩ := ih (hfits.stays hstays)
      (hloads.branch hfits hcongr hbranch) (show i + 1 + count ≤ _ by rw [hloads.objCount]; omega)
    rw [loadFrom, hcall]
    simp only [Option.bind_eq_bind, Option.bind_some, hrest]
    exact ⟨store'', node'', rfl, hstays.trans hstays', hloads.trans hloads'⟩

private theorem prefetch_loads {below : BtreeNode → Prop} (hfits : view.Fits store)
    (hcongr : ∀ {child child'}, view.load child = view.load child' → below child' → below child)
    (hbelow : ∀ child, below child → (view.load child).isLoaded = true)
    (hbranch : Branch below parent) (hlt : parent.objCount < 2 ^ 32 - 1) : ∃ store' parent',
    prefetch store parent = some (store', parent') ∧ store.Stays store' ∧
      Loads view parent parent' := by
  rw [prefetch, if_pos hlt]
  exact loadFrom_loads hfits hcongr hbelow hbranch (Nat.le_of_eq (Nat.add_comm 1 _))

/-- A cursor at a record, with the records before it and behind it. -/
inductive Points (view : View) (items : List Item) (levels : Nat) :
    Place → Nat → List Item → Item → List Item → Prop where
  | leaf {least i : Nat} {place : Place} {front back : List Item} {item : Item}
      (hplace : Stands view 0 least items place) (hlevels : place.above.length = levels)
      (hitems : place.node.items = front ++ item :: back) (hi : front.length = i) :
      Points view items levels place i
        (itemsBefore view 0 place.node.childNo place.above ++ front) item
        (back ++ itemsAfter view 0 place.node.childNo place.above)
  | record {height least i : Nat} {place : Place} {left right : List BtreeNode}
      {child next : BtreeNode} {front back : List Item} {item : Item}
      (hplace : Stands view (height + 1) least items place)
      (hlevels : height + 1 + place.above.length = levels)
      (hwindow : Window place.node i left [child, next] right front [item] back) :
      Points view items levels place i
        (itemsBefore view height i (place.node :: place.above) ++ inorder view height child) item
        (inorder view height next ++ itemsAfter view height (i + 1) (place.node :: place.above))

theorem Points.total (hfits : view.Fits store)
    (hpoints : Points view items levels place i before item after) :
    items = before ++ item :: after := by
  cases hpoints with
  | leaf hplace hlevels hitems hi =>
    rw [← hplace.items, hfits.inorder_leaf hplace.loaded, hitems]
    simp only [List.append_assoc, List.cons_append]
  | record hplace hlevels hwindow => exact hplace.items_two hfits hwindow

theorem Points.get (hpoints : Points view items levels place i before item after) :
    (⟨some place, i⟩ : Cursor).item = some item := by
  cases hpoints with
  | leaf hplace hlevels hitems hi =>
    show place.node.items[i]? = some item
    rw [hitems, List.getElem?_append_right (Nat.le_of_eq hi), hi, Nat.sub_self]
    rfl
  | record hplace hlevels hwindow => exact hwindow.sep_eq

/-- A tree whose nodes have few records: no more are allowed, or it is a single leaf. -/
def FewKeys (view : View) (items : List Item) (levels : Nat) : Prop :=
  view.maxKeys ≤ few ∨ levels = 0 ∧ items.length ≤ few

theorem FewKeys.objCount_le (hfew : FewKeys view items levels) (hfits : view.Fits store)
    (hplace : Stands view height least items place)
    (hlevels : height + place.above.length = levels) : place.node.objCount ≤ few := by
  rcases hfew with hmax | ⟨rfl, hcount⟩
  · have hle := hplace.shape.le
    rw [hfits.loaded _ hplace.loaded] at hle
    exact hle.trans hmax
  · obtain ⟨rfl, -⟩ := Nat.add_eq_zero_iff.mp hlevels
    have hlength := congrArg List.length hplace.items
    rw [hfits.inorder_leaf hplace.loaded, List.length_append, List.length_append] at hlength
    exact (show place.node.items.length ≤ items.length by omega).trans hcount

theorem prefetch_stands (hfew : FewKeys view items levels) (hfits : view.Fits store)
    (hplace : Stands view height least items ⟨node, parent :: above⟩)
    (hlevels : height + (parent :: above).length = levels) : ∃ store' parent',
    prefetch store parent = some (store', parent') ∧ store.Stays store' ∧
      Stands view height least items ⟨node, parent' :: above⟩ ∧
      itemsBefore view height node.childNo (parent' :: above) =
        itemsBefore view height node.childNo (parent :: above) ∧
      itemsAfter view height node.childNo (parent' :: above) =
        itemsAfter view height node.childNo (parent :: above) := by
  obtain ⟨least', hparent, -⟩ := parent_stands hfits hplace
  have hcount := hfew.objCount_le hfits hparent (by
    rw [← hlevels, List.length_cons]
    exact Nat.succ_add_eq_add_succ height above.length)
  obtain ⟨store', parent', hcall, hstays, hloads⟩ := prefetch_loads hfits Under.congr
    (fun child hunder => hunder.2.loaded) (hfits.branch hparent.loaded hparent.shape)
    (Nat.lt_of_le_of_lt hcount (by decide))
  exact ⟨store', parent', hcall, hstays, hplace.loads_above hfits hloads,
    itemsBefore_loads hloads, itemsAfter_loads hloads⟩

theorem FewKeys.leaf_pos (hfew : FewKeys view items levels) (hfits : view.Fits store)
    (hplace : Stands view 0 least items place) (hlevels : place.above.length = levels)
    (hitems : place.node.items = front ++ item :: back) (hi : front.length = i) :
    pred place.node.objCount = i + back.length ∧ (i + 1) % 2 ^ 64 = i + 1 := by
  have hcount := hfew.objCount_le hfits hplace ((Nat.zero_add _).trans hlevels)
  have hlength : place.node.objCount = i + (back.length + 1) := by
    rw [BtreeNode.objCount, hitems, List.length_append, List.length_cons, hi]
  rw [few] at hcount
  rw [pred_eq (by omega) (by omega)]
  omega

section Moves

variable (hmax : 6 ≤ view.maxKeys) (hfew : FewKeys view items levels) (hfits : view.Fits store)
include hmax hfew hfits

theorem seqNext_points (hdepth : levels < depth)
    (hpoints : Points view items levels place i before item (next :: after)) :
    ∃ store' place' i', seqNext depth store root ⟨some place, i⟩ =
        some (store', ⟨some place', i'⟩, true) ∧ store.Stays store' ∧
      Points view items levels place' i' (before ++ [item]) next after := by
  suffices hnext : ∃ store' place' i' before', seqNext depth store root ⟨some place, i⟩ =
        some (store', ⟨some place', i'⟩, true) ∧ store.Stays store' ∧
      Points view items levels place' i' before' next after by
    obtain ⟨store', place', i', before', hcall, hstays, hpoints'⟩ := hnext
    have htotal := (hpoints.total hfits).symm.trans (hpoints'.total (hfits.stays hstays))
    rw [List.append_cons] at htotal
    obtain rfl := List.append_cancel_right htotal
    exact ⟨store', place', i', hcall, hstays, hpoints'⟩
  generalize hafter : next :: after = rest at hpoints
  cases hpoints with
  | @leaf _ _ _ front back _ hplace hlevels hitems hi =>
    have hleaf := (hfits.bottom hplace.loaded hplace.shape).leaf
    obtain ⟨hpred, hpast⟩ := hfew.leaf_pos hfits hplace hlevels hitems hi
    cases back with
    | nil =>
      rw [List.length_nil, Nat.add_zero] at hpred
      rcases climbNext_stands hfits hplace with ⟨-, hnone⟩ | ⟨parent, i', height', least', left,
        child, other, right, front', sep, back', hclimb, hparent, hwindow, hlevels', hsame⟩
      · rw [hnone] at hafter
        cases hafter
      · rw [List.nil_append, hsame] at hafter
        cases hafter
        refine ⟨store, parent, i', _, ?_, Store.Stays.refl store,
          .record hparent (hlevels'.trans ((Nat.zero_add _).trans hlevels)) hwindow⟩
        rw [seqNext]
        simp only [if_pos hleaf, hpred]
        rw [if_neg (Nat.lt_irrefl i), if_pos trivial, hclimb]
    | cons other back =>
      cases hafter
      have hitems' : place.node.items = front ++ [item] ++ next :: back := by
        rw [hitems, List.append_assoc, List.singleton_append]
      have hi' : (front ++ [item]).length = i + 1 := by
        rw [List.length_append, hi, List.length_singleton]
      refine ⟨store, place, i + 1, _, ?_, Store.Stays.refl store, .leaf hplace hlevels hitems' hi'⟩
      rw [seqNext]
      simp only [if_pos hleaf, hpred, hpast]
      rw [if_pos (show i < i + (next :: back).length by simp)]
  | record hplace hlevels hwindow =>
    have hinner : ¬ place.node.isLeaf = true := by
      rw [(hfits.branch hplace.loaded hplace.shape).inner]
      exact Bool.false_ne_true
    obtain ⟨sep, store', inner, store'', leaf, least', -, hchild, hdescend, hstays, hleaf, hsome,
      hbelow, hlevels', hsame⟩ := down_first hmax hfits hplace hwindow.lt_objCount
        (show _ < depth by omega)
    rw [itemsAfter_two hwindow, List.cons.injEq] at hsame
    obtain ⟨leaf, above⟩ := leaf
    obtain ⟨parent, above, rfl⟩ := List.exists_cons_of_ne_nil hbelow
    obtain ⟨last, parent', hprefetch, hstays', hleaf', -, hsame'⟩ := prefetch_stands hfew
      (hfits.stays hstays) hleaf ((Nat.zero_add _).trans (hlevels'.trans hlevels))
    obtain ⟨other, back, hitems⟩ := List.exists_cons_of_length_pos hsome
    rw [hsame.2, ← hsame', hitems] at hafter
    cases hafter
    refine ⟨last, ⟨leaf, parent' :: above⟩, 0, _, ?_, hstays.trans hstays',
      .leaf hleaf' (hlevels'.trans hlevels) hitems List.length_nil⟩
    rw [seqNext]
    simp only [if_neg hinner, hchild, hdescend, Option.bind_eq_bind, Option.bind_some, hprefetch]

theorem seqNext_last (hpoints : Points view items levels place i before item []) :
    seqNext depth store root ⟨some place, i⟩ = some (store, ⟨some place, i + 1⟩, false) ∧
      place.node.objCount = i + 1 := by
  generalize hafter : [] = rest at hpoints
  cases hpoints with
  | @leaf _ _ _ front back _ hplace hlevels hitems hi =>
    have hleaf := (hfits.bottom hplace.loaded hplace.shape).leaf
    obtain ⟨hpred, hpast⟩ := hfew.leaf_pos hfits hplace hlevels hitems hi
    obtain ⟨rfl, hnone⟩ := List.append_eq_nil_iff.mp hafter.symm
    rw [List.length_nil, Nat.add_zero] at hpred
    rcases climbNext_stands hfits hplace with ⟨hclimb, -⟩ | ⟨parent, i', height', least', left,
      child, other, right, front', sep, back', -, -, -, -, hsame⟩
    · refine ⟨?_, ?_⟩
      · rw [seqNext]
        simp only [if_pos hleaf, hpred, hpast]
        rw [if_neg (Nat.lt_irrefl i), if_pos trivial, hclimb]
      · rw [BtreeNode.objCount, hitems, List.length_append, hi]
        rfl
    · rw [hnone] at hsame
      cases hsame
  | record hplace hlevels hwindow =>
    obtain ⟨sep, store', inner, store'', leaf, least', -, -, -, -, -, hsome, -, -, hsame⟩ :=
      down_first hmax hfits hplace hwindow.lt_objCount (Nat.lt_succ_self _)
    rw [itemsAfter_two hwindow, List.cons.injEq, ← hafter] at hsame
    obtain ⟨hnone, -⟩ := List.append_eq_nil_iff.mp hsame.2.symm
    rw [BtreeNode.objCount, hnone] at hsome
    cases hsome

theorem seqPrev_points {prev : Item} (hdepth : levels < depth)
    (hpoints : Points view items levels place i (before ++ [prev]) item after) :
    ∃ store' place' i', seqPrev depth store root ⟨some place, i⟩ =
        some (store', ⟨some place', i'⟩, true) ∧ store.Stays store' ∧
      Points view items levels place' i' before prev (item :: after) := by
  suffices hprev : ∃ store' place' i' after', seqPrev depth store root ⟨some place, i⟩ =
        some (store', ⟨some place', i'⟩, true) ∧ store.Stays store' ∧
      Points view items levels place' i' before prev after' by
    obtain ⟨store', place', i', after', hcall, hstays, hpoints'⟩ := hprev
    have htotal := (hpoints.total hfits).symm.trans (hpoints'.total (hfits.stays hstays))
    rw [← List.append_cons] at htotal
    obtain rfl := (List.cons.inj (List.append_cancel_left htotal)).2
    exact ⟨store', place', i', hcall, hstays, hpoints'⟩
  generalize hbefore : before ++ [prev] = rest at hpoints
  cases hpoints with
  | @leaf _ _ _ front back _ hplace hlevels hitems hi =>
    have hleaf := (hfits.bottom hplace.loaded hplace.shape).leaf
    rcases List.eq_nil_or_concat front with rfl | ⟨front, last, rfl⟩
    · rcases climbPrev_stands hfits hplace with ⟨-, hnone⟩ | ⟨parent, i', height', least', left,
        child, other, right, front', sep, back', hclimb, hparent, hwindow, hlevels', hsame⟩
      · rw [hnone] at hbefore
        exact absurd hbefore (List.append_ne_nil_of_right_ne_nil _ (List.cons_ne_nil _ _))
      · rw [List.append_nil, hsame] at hbefore
        obtain ⟨rfl, hlast⟩ := List.append_inj' hbefore rfl
        cases hlast
        refine ⟨store, parent, i', _, ?_, Store.Stays.refl store,
          .record hparent (hlevels'.trans ((Nat.zero_add _).trans hlevels)) hwindow⟩
        rw [seqPrev]
        simp only [if_pos hleaf]
        rw [if_neg (show ¬ i > 0 by rw [← hi]; exact Nat.lt_irrefl 0), hclimb]
        rfl
    · rw [List.concat_eq_append] at hitems hi hbefore
      rw [← List.append_assoc] at hbefore
      obtain ⟨rfl, hlast⟩ := List.append_inj' hbefore rfl
      cases hlast
      rw [List.append_assoc, List.singleton_append] at hitems
      rw [List.length_append, List.length_singleton] at hi
      refine ⟨store, place, i - 1, _, ?_, Store.Stays.refl store,
        .leaf hplace hlevels hitems (Nat.eq_sub_of_add_eq hi)⟩
      rw [seqPrev]
      simp only [if_pos hleaf]
      rw [if_pos (show i > 0 by omega)]
  | record hplace hlevels hwindow =>
    have hinner : ¬ place.node.isLeaf = true := by
      rw [(hfits.branch hplace.loaded hplace.shape).inner]
      exact Bool.false_ne_true
    obtain ⟨store', inner, store'', leaf, least', hchild, hdescend, hstays, hleaf, hsome, hlevels',
      hsame⟩ := down_last hmax hfits hplace hwindow (show _ < depth by omega)
    rcases List.eq_nil_or_concat leaf.node.items with hnone | ⟨front, last, hitems⟩
    · rw [BtreeNode.objCount, hnone] at hsome
      cases hsome
    · rw [List.concat_eq_append] at hitems
      obtain ⟨hpred, -⟩ := hfew.leaf_pos (hfits.stays hstays) hleaf (hlevels'.trans hlevels) hitems
        rfl
      rw [hsame, hitems, ← List.append_assoc] at hbefore
      obtain ⟨rfl, hlast⟩ := List.append_inj' hbefore rfl
      cases hlast
      refine ⟨store'', leaf, front.length, _, ?_, hstays,
        .leaf hleaf (hlevels'.trans hlevels) hitems rfl⟩
      rw [seqPrev]
      simp only [if_neg hinner, hchild, hdescend, Option.bind_eq_bind, Option.bind_some, hpred]
      rfl

omit hfew in
theorem seqPrev_first (hpoints : Points view items levels place i [] item after) :
    seqPrev depth store root ⟨some place, i⟩ =
      some (store, ⟨some place, 2 ^ 64 - 1⟩, false) := by
  generalize hbefore : [] = rest at hpoints
  cases hpoints with
  | leaf hplace hlevels hitems hi =>
    have hleaf := (hfits.bottom hplace.loaded hplace.shape).leaf
    obtain ⟨hnone, rfl⟩ := List.append_eq_nil_iff.mp hbefore.symm
    rcases climbPrev_stands hfits hplace with ⟨hclimb, -⟩ | ⟨parent, i', height', least', left,
      child, other, right, front', sep, back', -, -, -, -, hsame⟩
    · rw [seqPrev]
      simp only [if_pos hleaf]
      rw [if_neg (show ¬ i > 0 by rw [← hi]; exact Nat.lt_irrefl 0), hclimb]
    · rw [hsame] at hnone
      exact absurd hnone (List.append_ne_nil_of_right_ne_nil _ (List.cons_ne_nil _ _))
  | record hplace hlevels hwindow =>
    obtain ⟨store', inner, store'', leaf, least', -, -, -, -, hsome, -, hsame⟩ :=
      down_last hmax hfits hplace hwindow (Nat.lt_succ_self _)
    rw [hsame] at hbefore
    have hnone := (List.append_eq_nil_iff.mp hbefore.symm).2
    rw [BtreeNode.objCount, hnone] at hsome
    cases hsome

end Moves

theorem Stands.root_some (hfits : view.Fits store)
    (hroot : Stands view height least items ⟨root, []⟩) (hitems : items ≠ []) (hzero : height = 0) :
    1 ≤ root.objCount := by
  subst hzero
  have htotal := hroot.items
  rw [itemsBefore, itemsAfter, hfits.inorder_leaf hroot.loaded, List.nil_append,
    List.append_nil] at htotal
  rw [BtreeNode.objCount, htotal]
  exact List.length_pos_of_ne_nil hitems

section Ends

variable (hmax : 6 ≤ view.maxKeys) (hfits : view.Fits store)
  (hroot : Stands view levels least items ⟨root, []⟩) (hitems : items ≠ [])
  (hdepth : levels < depth)
include hmax hfits hroot hitems hdepth

theorem first_points : ∃ store' leaf item after,
    (⟨root, []⟩ : Place).descend (fun _ => 0) depth store = some (store', leaf) ∧
      store.Stays store' ∧ Points view items levels leaf 0 [] item after := by
  obtain ⟨store', leaf, least', hdescend, hstays, hleaf, hbefore, hlevels, hsome⟩ :=
    descend_first hmax hfits hroot hdepth
  obtain ⟨item, back, hback⟩ :=
    List.exists_cons_of_length_pos (hsome (hroot.root_some hfits hitems))
  have hpoints := Points.leaf hleaf hlevels hback List.length_nil
  rw [hbefore, itemsBefore, List.append_nil] at hpoints
  exact ⟨store', leaf, item, _, hdescend, hstays, hpoints⟩

theorem last_points (hfew : FewKeys view items levels) : ∃ store' leaf before item,
    (⟨root, []⟩ : Place).descend BtreeNode.objCount depth store = some (store', leaf) ∧
      store.Stays store' ∧
      Points view items levels leaf (pred leaf.node.objCount) before item [] := by
  obtain ⟨store', leaf, least', hdescend, hstays, hleaf, hafter, hlevels, hsome⟩ :=
    descend_last hmax hfits hroot hdepth
  obtain ⟨front, item, hfront⟩ := (List.eq_nil_or_concat leaf.node.items).resolve_left
    (List.ne_nil_of_length_pos (hsome (hroot.root_some hfits hitems)))
  rw [List.concat_eq_append] at hfront
  obtain ⟨hpred, -⟩ := hfew.leaf_pos (hfits.stays hstays) hleaf hlevels hfront rfl
  have hpoints := Points.leaf hleaf hlevels hfront hpred.symm
  rw [hafter, itemsAfter, List.append_nil] at hpoints
  exact ⟨store', leaf, _, item, hdescend, hstays, hpoints⟩

end Ends

end Libsax.Btree
