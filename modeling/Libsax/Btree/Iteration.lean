import Libsax.Btree.Seq

/-! Trees that insertions have built are iterated over in order, both ways, and from where
a search for another key ends. A cursor without a node starts at an end of the tree,
unless it goes forward and the root is a leaf. -/
namespace Libsax.Btree

open Libsax.Lib
open Libsax.Db (Key Value)

variable {cmp : Key → Key → Ordering} {mode : Mode} {view : View} {db next final : Btreedb}
  {place : Place} {height least i levels maxKeys : Nat} {item : Item}
  {before after items : List Item} {given : List (Key × Value)} {key : Key}

private theorem spot_many (hmany : 2 ^ 31 < items.length) : spot cmp key items = none := by
  unfold spot bisect
  rw [if_pos (by omega), if_neg (by omega)]

namespace Btreedb

private theorem objCount_of_insertKey (hroom : db.root.objCount < db.store.sfh.maxKeys)
    {value : Value}
    {delaySplit inserted : Bool}
    (hinsert : db.insertKey cmp delaySplit key value = some (next, inserted)) :
    db.root.objCount ≤ 2 ^ 31 := by
  by_contra hmany
  have hspot : spot cmp key db.root.items = none := spot_many (Nat.not_le.mp hmany)
  unfold Btreedb.insertKey insertInto growRoot at hinsert
  rw [if_neg (Nat.not_le.mpr hroom)] at hinsert
  simp only [Option.bind_eq_bind, Option.bind_some, hspot, Option.bind_none] at hinsert
  cases hinsert

def Few (maxKeys height : Nat) (db : Btreedb) : Prop :=
  FewKeys (View.memory maxKeys) (inorder (View.memory maxKeys) height db.root) height

section Runs

variable [Std.TransCmp cmp] [Std.LawfulEqCmp cmp]

theorem Few.step (hmax : 6 ≤ maxKeys) {action : Action}
    (hvalid : Valid cmp maxKeys given db height) (hfew : Few maxKeys height db)
    (hstep : Btreedb.step cmp mode db action = some next) :
    ∃ height', Valid cmp maxKeys (given ++ pairs [action]) next height' ∧
      Few maxKeys height' next := by
  cases action with
  | insert key value =>
    obtain ⟨⟨other, inserted⟩, hinsert, rfl⟩ := Option.map_eq_some_iff.mp hstep
    rcases hvalid.insert hmax mode key value with
      ⟨next, height', hresult, hvalid', -, hsame⟩ | ⟨hnone, -⟩
    · obtain ⟨rfl, -⟩ := Prod.mk.inj (Option.some.inj (hresult.symm.trans hinsert))
      obtain ⟨tuned, htune, hinsert⟩ := Option.bind_eq_some_iff.mp hinsert
      have hstill : tuned.root.objCount = db.root.objCount :=
        congrArg List.length (tune_root htune).items
      have hsizes := (tune_rewritten htune hvalid.shape).counts.maxKeys.trans hvalid.sizes
      refine ⟨height', hvalid', ?_⟩
      rcases hfew with hsmall | ⟨rfl, hcount⟩
      · exact .inl hsmall
      · by_cases hsmall : maxKeys ≤ few
        · exact .inl hsmall
        · have hlength : db.root.objCount < maxKeys := by
            have hroot : db.root.objCount ≤ few := hcount
            omega
          obtain rfl := hsame hlength
          have hroot := objCount_of_insertKey (by rw [hstill, hsizes]; exact hlength) hinsert
          rw [hstill] at hroot
          have hbefore : db.root.objCount = (given.map Prod.fst).dedup.length :=
            hvalid.count.trans hvalid.numItems
          refine .inr ⟨rfl, ?_⟩
          rw [hvalid'.count, hvalid'.numItems, List.map_append, List.map_singleton,
            length_dedup_append, ← hbefore, few]
          split_ifs
          · exact Nat.le_succ_of_le hroot
          · exact Nat.succ_le_succ hroot
    · rw [hnone] at hinsert
      cases hinsert
  | write path =>
    obtain ⟨⟨store, root⟩, hwrite, rfl⟩ := Option.map_eq_some_iff.mp hstep
    have hnone : pairs [.write path] = [] := rfl
    rw [hnone, List.append_nil]
    refine ⟨height, hvalid.write hwrite, ?_⟩
    unfold Few
    rw [(writeAt_rewritten hwrite hvalid.shape).same]
    exact hfew

theorem Few.run (hmax : 6 ≤ maxKeys) {actions : List Action}
    (hvalid : Valid cmp maxKeys given db height) (hfew : Few maxKeys height db)
    (hrun : run (Btreedb.step cmp mode) db actions = some final) :
    ∃ height', Valid cmp maxKeys (given ++ pairs actions) final height' ∧
      Few maxKeys height' final := by
  induction actions generalizing db given height with
  | nil =>
    cases hrun
    have hnone : pairs [] = [] := rfl
    rw [hnone, List.append_nil]
    exact ⟨height, hvalid, hfew⟩
  | cons action rest ih =>
    obtain ⟨other, hstep, hrest⟩ := run_cons_eq_some.mp hrun
    obtain ⟨height', hvalid', hfew'⟩ := hfew.step hmax hvalid hstep
    have hsplit : pairs (action :: rest) = pairs [action] ++ pairs rest :=
      List.filterMap_append (l := [action])
    rw [hsplit, ← List.append_assoc]
    exact ih hvalid' hfew' hrest

private theorem create_few (maxKeys pageSize : Nat) : Few maxKeys 0 (create maxKeys pageSize) :=
  .inr ⟨rfl, Nat.zero_le _⟩

end Runs

end Btreedb

theorem Stands.leaf_some (hmax : 6 ≤ view.maxKeys) {store : Store} (hfits : view.Fits store)
    (hplace : Stands view 0 least items place) (hitems : items ≠ []) : 1 ≤ place.node.objCount := by
  obtain ⟨node, above⟩ := place
  cases above with
  | nil => exact hplace.root_some hfits hitems rfl
  | cons parent above =>
    obtain ⟨hloaded, ⟨least', hshape⟩, ⟨child, hchild, hsame⟩, -⟩ := hplace.spine
    have hunder := (hfits.branch hloaded hshape).below child (List.mem_of_getElem? hchild)
    have hleast : view.maxKeys / 3 - 1 ≤ (inorder view 0 child).length := hunder.2.least_le
    rw [hsame, hfits.inorder_leaf hplace.loaded] at hleast
    exact Nat.le_trans (by omega) hleast

def greater (cmp : Key → Key → Ordering) (key : Key) (items : List Item) : List Item :=
  items.filter fun item => cmp key item.1 = .lt

private theorem greater_append [Std.OrientedCmp cmp] (hbelow : Below cmp key before)
    (habove : Above cmp key after) : greater cmp key (before ++ after) = after := by
  have hnone : before.filter (fun item => cmp key item.1 = .lt) = [] := by
    refine List.filter_eq_nil_iff.mpr fun item hitem => ?_
    rw [Std.OrientedCmp.gt_of_lt (hbelow item hitem)]
    decide
  have hall : after.filter (fun item => cmp key item.1 = .lt) = after :=
    List.filter_eq_self.mpr fun item hitem => decide_eq_true (habove item hitem)
  rw [greater, List.filter_append, hnone, hall, List.nil_append]

/-- The cursor is where these last records of the tree begin, and the walk from there lists
them. Where there are none, it is one past the last record of the tree. -/
structure Rests (items rest : List Item) (db : Btreedb) (locn : Cursor) : Prop where
  item : locn.item = rest.head?
  walk : rest ≠ [] → ∀ fuel, rest.length ≤ fuel → db.walk true fuel locn = some rest
  past : rest = [] → ∃ place, locn = ⟨some place, place.node.objCount⟩ ∧
    place.node.items.getLast? = items.getLast?

private theorem rests_at (hmoves : Moves view items levels db)
    (hpoints : Points view items levels place i before item after) :
    Rests items (item :: after) db ⟨some place, i⟩ where
  item := hpoints.get
  walk _ _ hfuel := walk_forward hmoves hpoints (Nat.lt_of_succ_le hfuel)
  past hnone := absurd hnone (List.cons_ne_nil item after)

private theorem rests_past (hfits : view.Fits db.store)
    (hpoints : Points view items levels place i before item [])
    (hcount : place.node.objCount = i + 1) : Rests items [] db ⟨some place, i + 1⟩ where
  item := List.getElem?_eq_none_iff.mpr (Nat.le_of_eq hcount)
  walk hsome := absurd rfl hsome
  past _ := by
    refine ⟨place, by rw [hcount], ?_⟩
    have hitem : place.node.items[i]? = some item := hpoints.get
    have hlast : place.node.items.length - 1 = i := Nat.sub_eq_of_eq_add hcount
    rw [hpoints.total hfits, List.getLast?_append, List.getLast?_singleton, Option.some_or,
      List.getLast?_eq_getElem?, hlast, hitem]

section Search

variable [Std.TransCmp cmp] [Std.LawfulEqCmp cmp]

theorem search_absent (hmoves : Moves view items levels db)
    (hroot : Stands view levels least items ⟨db.root, []⟩) (hitems : items ≠ [])
    (hkeys : Ascending cmp items) (habsent : ∀ item ∈ items, item.1 ≠ key)
    (hnarrow : Narrow view levels db.root) :
    ∃ db' locn, db.search_ cmp key = some (db', locn, false) ∧
      Rests items (greater cmp key items) db' locn := by
  obtain ⟨store, leaf, least', low, hsearch, hstays, hleaf, hlevels, hlow, hbelow, habove⟩ :=
    searchInto_absent hmoves.fits hroot hkeys habsent below_nil above_nil hnarrow
      (Nat.lt_add_one_of_lt hmoves.pages)
  have hmoves' := hmoves.stays hstays
  have hsome := hleaf.leaf_some hmoves.max hmoves'.fits hitems
  have hgreater : greater cmp key items =
      leaf.node.items.drop low ++ itemsAfter view 0 leaf.node.childNo leaf.above := by
    have hall := hleaf.items
    rw [hmoves'.fits.inorder_leaf hleaf.loaded, ← List.take_append_drop low leaf.node.items,
      ← List.append_assoc, List.append_assoc] at hall
    rw [← hall]
    exact greater_append hbelow habove
  unfold Btreedb.search_
  simp only [Option.bind_eq_bind, hsearch, Option.bind_some]
  by_cases hend : low ≥ leaf.node.objCount
  · -- the leaf has no greater key: on from its last record
    obtain ⟨front, last, hfront⟩ := (List.eq_nil_or_concat leaf.node.items).resolve_left
      (List.ne_nil_of_length_pos hsome)
    rw [List.concat_eq_append] at hfront
    obtain ⟨hpred, -⟩ := hmoves'.few.leaf_pos hmoves'.fits hleaf hlevels hfront rfl
    have hpoints := Points.leaf hleaf hlevels hfront rfl
    rw [if_pos hend, Nat.le_antisymm hlow hend, hpred, hgreater, List.drop_eq_nil_of_le hend]
    cases hrest : [] ++ itemsAfter view 0 leaf.node.childNo leaf.above with
    | nil =>
      rw [hrest] at hpoints
      obtain ⟨hcall, hcount⟩ := seq_end hmoves' hpoints
      refine ⟨_, _, ?_, rests_past hmoves'.fits hpoints hcount⟩
      simp only [List.length_nil, Nat.add_zero, hcall, Option.bind_some]
    | cons next rest =>
      rw [hrest] at hpoints
      obtain ⟨db', place', i', hcall, hmoves'', hpoints'⟩ := seq_next hmoves' hpoints
      refine ⟨_, _, ?_, rests_at hmoves'' hpoints'⟩
      simp only [List.length_nil, Nat.add_zero, hcall, Option.bind_some]
  · obtain ⟨item, back, hback⟩ := List.exists_cons_of_length_pos
      (show 0 < (leaf.node.items.drop low).length by
        rw [List.length_drop]
        exact Nat.sub_pos_of_lt (Nat.not_le.mp hend))
    have hsplit : leaf.node.items = leaf.node.items.take low ++ item :: back := by
      rw [← hback, List.take_append_drop]
    rw [if_neg hend, hgreater, hback]
    refine ⟨_, _, rfl, rests_at hmoves' (.leaf hleaf ?_ hsplit ?_)⟩
    · exact hlevels
    · rw [List.length_take]
      exact Nat.min_eq_left hlow

end Search

private theorem walk_from_first (hmoves : Moves view items levels db)
    (hpoints : Points view items levels place i [] item after) {fuel : Nat}
    (hfuel : items.length ≤ fuel) : db.walk true fuel ⟨some place, i⟩ = some items := by
  have htotal : items = item :: after := hpoints.total hmoves.fits
  have hlength : after.length < fuel := by
    rw [htotal] at hfuel
    exact Nat.lt_of_succ_le hfuel
  rw [walk_forward hmoves hpoints hlength, htotal]

private theorem walk_from_last (hmoves : Moves view items levels db)
    (hpoints : Points view items levels place i before item []) {fuel : Nat}
    (hfuel : items.length ≤ fuel) : db.walk false fuel ⟨some place, i⟩ = some items.reverse := by
  have htotal : items = before ++ [item] := hpoints.total hmoves.fits
  have hlength : before.length < fuel := by
    rw [htotal, List.length_append, List.length_singleton] at hfuel
    exact Nat.lt_of_succ_le hfuel
  rw [walk_backward hmoves hpoints hlength, htotal, List.reverse_append, List.reverse_singleton,
    List.singleton_append]

section Ends

variable (hmoves : Moves view items levels db)
  (hroot : Stands view levels least items ⟨db.root, []⟩) (hitems : items ≠ [])
include hmoves hroot hitems

private theorem first_walks : ∃ db' locn, db.getFirstLocn = some (db', locn) ∧
    ∀ fuel, items.length ≤ fuel → db'.walk true fuel locn = some items := by
  obtain ⟨store, leaf, item, after, hdescend, hstays, hpoints⟩ := first_points hmoves.max
    hmoves.fits hroot hitems (Nat.lt_add_one_of_lt hmoves.pages)
  refine ⟨{ db with store := store }, ⟨some leaf, 0⟩, ?_,
    fun fuel hfuel => walk_from_first (hmoves.stays hstays) hpoints hfuel⟩
  simp only [Btreedb.getFirstLocn, hdescend, Option.bind_eq_bind, Option.bind_some]

private theorem last_walks : ∃ db' locn, db.getLastLocn = some (db', locn) ∧
    ∀ fuel, items.length ≤ fuel → db'.walk false fuel locn = some items.reverse := by
  obtain ⟨store, leaf, before, item, hdescend, hstays, hpoints⟩ := last_points hmoves.max
    hmoves.fits hroot hitems (Nat.lt_add_one_of_lt hmoves.pages) hmoves.few
  refine ⟨{ db with store := store }, ⟨some leaf, pred leaf.node.objCount⟩, ?_,
    fun fuel hfuel => walk_from_last (hmoves.stays hstays) hpoints hfuel⟩
  simp only [Btreedb.getLastLocn, hdescend, Option.bind_eq_bind, Option.bind_some]

end Ends

/-- A cursor without a node is moved to the first record, or to the last, and the walk goes on
from there. -/
def Starts (items : List Item) (db : Btreedb) (sdir : Bool) : Prop :=
  ∃ db' locn, db.seq_ Cursor.create sdir = some (db', locn, true) ∧
    locn.item = (if sdir then items.head? else items.getLast?) ∧
    ∀ fuel, items.length ≤ fuel →
      db'.walk sdir fuel locn = some (if sdir then items else items.reverse)

theorem Points.pos_lt {store : Store} (hfew : FewKeys view items levels) (hfits : view.Fits store)
    (hpoints : Points view items levels place i before item after) : i < few := by
  have hin : i < place.node.objCount := (List.getElem?_eq_some_iff.mp hpoints.get).1
  cases hpoints with
  | leaf hplace hlevels hitems hi =>
    exact Nat.lt_of_lt_of_le hin
      (hfew.objCount_le hfits hplace ((Nat.zero_add _).trans hlevels))
  | record hplace hlevels hwindow =>
    exact Nat.lt_of_lt_of_le hin (hfew.objCount_le hfits hplace hlevels)

section Starts

variable (hmoves : Moves view items levels db)
include hmoves

omit hmoves in
private theorem seq_leaf_root (hnumItems : db.store.sfh.numItems ≠ 0)
    (hleaf : db.root.isLeaf = true) :
    db.seq_ Cursor.create true = none := by
  simp only [Btreedb.seq_, if_neg hnumItems, if_true, Cursor.create, seqNext, Place.descend, hleaf,
    Option.bind_eq_bind, Option.bind_some, Option.bind_none]

private theorem starts_backward (hroot : Stands view levels least items ⟨db.root, []⟩)
    (hitems : items ≠ []) : Starts items db false := by
  obtain ⟨store, leaf, before, item, hdescend, hstays, hpoints⟩ := last_points hmoves.max
    hmoves.fits hroot hitems (Nat.lt_add_one_of_lt hmoves.pages) hmoves.few
  have hmoves' := hmoves.stays hstays
  have htotal : items = before ++ [item] := hpoints.total hmoves'.fits
  have hpos : pred leaf.node.objCount ≠ 2 ^ 64 - 1 := by
    have hlt := hpoints.pos_lt hmoves.few hmoves'.fits
    rw [few] at hlt
    omega
  refine ⟨{ db with store := store }, ⟨some leaf, pred leaf.node.objCount⟩, ?_, ?_,
    fun fuel hfuel => walk_from_last hmoves' hpoints hfuel⟩
  · simp only [Btreedb.seq_, if_neg hmoves.some, Bool.false_eq_true, if_false, Cursor.create,
      seqPrev, hdescend, Option.bind_eq_bind, Option.bind_some, decide_eq_true hpos]
  · rw [hpoints.get, htotal, List.getLast?_concat]
    rfl

private theorem starts_forward (hroot : Stands view levels least items ⟨db.root, []⟩)
    (hinner : db.root.isLeaf = false) : Starts items db true := by
  have hlevels : levels ≠ 0 := by
    rintro rfl
    rw [(hmoves.fits.bottom hroot.loaded hroot.shape).leaf] at hinner
    cases hinner
  obtain ⟨store, ⟨node, above⟩, least', hdescend, hstays, hleaf, hbefore, habove, hsome⟩ :=
    descend_first hmoves.max hmoves.fits hroot (Nat.lt_add_one_of_lt hmoves.pages)
  obtain ⟨parent, above, rfl⟩ := List.exists_cons_of_length_pos
    (show 0 < above.length by rw [habove]; exact Nat.pos_of_ne_zero hlevels)
  obtain ⟨store', parent', hprefetch, hstays', hleaf', hbefore', -⟩ := prefetch_stands
    hmoves.few (hmoves.fits.stays hstays) hleaf ((Nat.zero_add _).trans habove)
  have hmoves' := hmoves.stays (hstays.trans hstays')
  obtain ⟨item, back, hback⟩ :=
    List.exists_cons_of_length_pos (hsome fun hzero => absurd hzero hlevels)
  have hpoints := Points.leaf hleaf' habove hback List.length_nil
  rw [hbefore', hbefore, itemsBefore, List.append_nil] at hpoints
  refine ⟨{ db with store := store' }, ⟨some ⟨node, parent' :: above⟩, 0⟩, ?_, ?_,
    fun fuel hfuel => walk_from_first hmoves' hpoints hfuel⟩
  · simp only [Btreedb.seq_, if_neg hmoves.some, if_true, Cursor.create, seqNext, hdescend,
      hprefetch, Option.bind_eq_bind, Option.bind_some]
  · rw [hpoints.get, hpoints.total hmoves'.fits]
    rfl

private theorem starts_iff (hroot : Stands view levels least items ⟨db.root, []⟩)
    (hitems : items ≠ [])
    (sdir : Bool) : Starts items db sdir ↔ sdir = false ∨ db.root.isLeaf = false := by
  constructor
  · rintro ⟨db', locn, hcall, -⟩
    by_contra hboth
    obtain ⟨hforward, hleaf⟩ := not_or.mp hboth
    rw [Bool.not_eq_false] at hforward hleaf
    rw [hforward, seq_leaf_root hmoves.some hleaf] at hcall
    cases hcall
  · intro heither
    cases sdir with
    | false => exact starts_backward hmoves hroot hitems
    | true => exact starts_forward hmoves hroot (heither.resolve_left (by decide))

end Starts

namespace Btreedb

theorem Valid.numItems_ne (hvalid : Valid cmp maxKeys given db height) (hsome : given ≠ []) :
    db.store.sfh.numItems ≠ 0 := by
  obtain ⟨pair, hpair⟩ := List.exists_mem_of_ne_nil given hsome
  rw [hvalid.numItems]
  exact Nat.ne_of_gt (List.length_pos_of_mem (List.mem_dedup.mpr (List.mem_map_of_mem hpair)))

theorem Valid.stands (hvalid : Valid cmp maxKeys given db height) :
    Stands (View.memory maxKeys) height (min 1 height)
      (inorder (View.memory maxKeys) height db.root) ⟨db.root, []⟩ :=
  stands_root hvalid.shape.loaded hvalid.shape

theorem Valid.inorder_ne (hvalid : Valid cmp maxKeys given db height) (hsome : given ≠ []) :
    inorder (View.memory maxKeys) height db.root ≠ [] := by
  intro hnone
  have hcount := hvalid.count
  rw [hnone] at hcount
  exact hvalid.numItems_ne hsome hcount.symm

section Runs

variable [Std.TransCmp cmp] [Std.LawfulEqCmp cmp]

private theorem run_moves (hmax : 6 ≤ maxKeys) {pageSize : Nat} {actions : List Action}
    (hrun : run (Btreedb.step cmp mode) (create maxKeys pageSize) actions = some final)
    (hsome : pairs actions ≠ []) :
    ∃ height, Valid cmp maxKeys (pairs actions) final height ∧
      Moves (View.memory maxKeys) (inorder (View.memory maxKeys) height final.root) height final := by
  obtain ⟨height, hvalid, hfew⟩ :=
    (create_few maxKeys pageSize).run hmax (create_valid cmp maxKeys pageSize) hrun
  exact ⟨height, hvalid, hmax, hfew, View.memory_fits hvalid.sizes, hvalid.pages,
    hvalid.numItems_ne hsome⟩

/-- After every run of insertions, the walk from the first record forward and the walk from the
last one backward list all records in their order. A search for a key that is not there ends
where the greater keys begin, where no node has more records than its indexes can address. -/
theorem iteration_ordered (hmax : 6 ≤ maxKeys) {pageSize : Nat} {actions : List Action}
    (hrun : run (Btreedb.step cmp mode) (create maxKeys pageSize) actions = some final)
    (hsome : pairs actions ≠ []) :
    ∃ (height : Nat) (items : List Item), Valid cmp maxKeys (pairs actions) final height ∧
      inorder (View.memory maxKeys) height final.root = items ∧
      (∃ db locn, final.getFirstLocn = some (db, locn) ∧
        ∀ fuel, items.length ≤ fuel → db.walk true fuel locn = some items) ∧
      (∃ db locn, final.getLastLocn = some (db, locn) ∧
        ∀ fuel, items.length ≤ fuel → db.walk false fuel locn = some items.reverse) ∧
      (Narrow (View.memory maxKeys) height final.root →
        ∀ key, key ∉ (pairs actions).map Prod.fst →
          ∃ db locn, final.search_ cmp key = some (db, locn, false) ∧
            Rests items (greater cmp key items) db locn) := by
  obtain ⟨height, hvalid, hmoves⟩ := run_moves hmax hrun hsome
  have hroot := hvalid.stands
  have hitems := hvalid.inorder_ne hsome
  refine ⟨height, _, hvalid, rfl, first_walks hmoves hroot hitems, last_walks hmoves hroot hitems,
    fun hnarrow key habsent => search_absent hmoves hroot hitems hvalid.ascending ?_ hnarrow⟩
  intro item hitem hkey
  exact habsent (hvalid.mem_keys_iff.mpr ⟨item, hitem, hkey⟩)

end Runs

/-- The walks over a tree of two levels, and a search for a key behind all others. -/
theorem iteration_ordered_split : ∃ (final : Btreedb) (height : Nat) (items : List Item),
    run (Btreedb.step compare ⟨3, true⟩) (create 6 1024) splitInserts = some final ∧
      final.root.isLeaf = false ∧
      Valid compare 6 (pairs splitInserts) final height ∧
      inorder (View.memory 6) height final.root = items ∧
      (∃ db locn, final.getFirstLocn = some (db, locn) ∧
        ∀ fuel, items.length ≤ fuel → db.walk true fuel locn = some items) ∧
      (∃ db locn, final.getLastLocn = some (db, locn) ∧
        ∀ fuel, items.length ≤ fuel → db.walk false fuel locn = some items.reverse) ∧
      ∃ db locn, final.search_ compare [3, 0] = some (db, locn, false) ∧
        Rests items (greater compare [3, 0] items) db locn := by
  obtain ⟨final, hrun, hinner⟩ := exists_run_split
  obtain ⟨height, items, hvalid, hitems, hfirst, hlast, hsearch⟩ :=
    iteration_ordered (le_refl 6) hrun (List.cons_ne_nil _ _)
  have hnarrow := hvalid.shape.narrow (show 6 ≤ 2 ^ 30 by decide)
  exact ⟨final, height, items, hrun, hinner, hvalid, hitems, hfirst, hlast,
    hsearch hnarrow [3, 0] (by decide)⟩

/-- The indexes overflow in the search for a key that is not there. -/
theorem search_overflows : ∃ final,
    run (Btreedb.step compare .create) (create (2 ^ 31) 4096) (ascendingInserts (2 ^ 30 + 1)) =
        some final ∧
      numberKey 4 (2 ^ 30 + 1) ∉ (pairs (ascendingInserts (2 ^ 30 + 1))).map Prod.fst ∧
      final.search_ compare (numberKey 4 (2 ^ 30 + 1)) = none := by
  obtain ⟨final, hrun, -, -, hspot⟩ := exists_run_overflow
  refine ⟨final, hrun, numberKey_notMem (by decide), ?_⟩
  unfold Btreedb.search_ searchInto
  simp only [Option.bind_eq_bind, hspot, Option.bind_none]

/-- In every tree, a cursor without a node is moved to the first record or to the last, unless
it goes forward and the root is a leaf. -/
theorem seq_default_iff [Std.TransCmp cmp] [Std.LawfulEqCmp cmp] (hmax : 6 ≤ maxKeys) :
    (∀ {view : View} {items : List Item} {levels least : Nat} {db : Btreedb},
      Moves view items levels db → Stands view levels least items ⟨db.root, []⟩ → items ≠ [] →
      ∀ sdir, Starts items db sdir ↔ sdir = false ∨ db.root.isLeaf = false) ∧
    ∀ {pageSize : Nat} {actions : List Action} {final : Btreedb},
      run (Btreedb.step cmp mode) (create maxKeys pageSize) actions = some final →
      pairs actions ≠ [] → ∃ (height : Nat) (items : List Item),
        Valid cmp maxKeys (pairs actions) final height ∧
        inorder (View.memory maxKeys) height final.root = items ∧
        ∀ sdir, Starts items final sdir ↔ sdir = false ∨ final.root.isLeaf = false := by
  refine ⟨fun hmoves hroot hitems => starts_iff hmoves hroot hitems, fun hrun hsome => ?_⟩
  obtain ⟨height, hvalid, hmoves⟩ := run_moves hmax hrun hsome
  exact ⟨height, _, hvalid, rfl, starts_iff hmoves hvalid.stands (hvalid.inorder_ne hsome)⟩

theorem seq_default_iff_seven : ∃ final items,
    run (Btreedb.step compare .create) (create 6 1024) sevenInserts = some final ∧
      Starts items final true ∧ Starts items final false := by
  have hrun : ((run (Btreedb.step compare .create) (create 6 1024) sevenInserts).map
      fun final => final.root.isLeaf) = some false := by decide +kernel
  obtain ⟨final, hrun, hinner⟩ := Option.map_eq_some_iff.mp hrun
  obtain ⟨height, items, -, -, hstarts⟩ :=
    (seq_default_iff (le_refl 6)).2 hrun (List.cons_ne_nil _ _)
  exact ⟨final, items, hrun, (hstarts true).mpr (.inr hinner), (hstarts false).mpr (.inl rfl)⟩

/-- A tree of one record is a leaf. -/
theorem seq_without_parent : ∃ final,
    run (Btreedb.step compare .create) (create 6 1024) [.insert [1] [2]] = some final ∧
      final.seq_ Cursor.create true = none := by
  have hrun : ((run (Btreedb.step compare .create) (create 6 1024) [.insert [1] [2]]).map
      fun final => (final.root.isLeaf, final.store.sfh.numItems)) = some (true, 1) := by
    decide +kernel
  obtain ⟨final, hrun, hfinal⟩ := Option.map_eq_some_iff.mp hrun
  obtain ⟨hleaf, hcount⟩ := Prod.mk.inj hfinal
  exact ⟨final, hrun, seq_leaf_root (by rw [hcount]; decide) hleaf⟩

end Btreedb

end Libsax.Btree
