import Mathlib.Data.Set.List
import Libsax.Btree.Place
import Libsax.Btree.Btreedb
import Libsax.Db.PackedRecords

/-! Ranges by rank: a walk from the first leaf on, which counts whole leaves and the records
between them. -/
namespace Libsax.Btree

open Libsax.Lib
open Libsax.Db (Key Value)

def packData (item : Item) : Option (Key × Value) :=
  (content item.2).map fun value => (item.1, value)

/-- Records are added one after the other, until there are `count`. -/
def pushAll (count : Nat) : List Item → List (Key × Value) → Option (List (Key × Value) × Bool)
  | [], pp => some (pp, false)
  | item :: items, pp => do
    let pp := pp ++ [← packData item]
    if pp.length = count then some (pp, true) else pushAll count items pp

/-- The way up from a leaf in `range`. It ends at the root, wherever it comes from. -/
def climbRange : Nat → List BtreeNode → Nat × Option Place
  | childNo, [] => (childNo, none)
  | childNo, parent :: above =>
    if above ≠ [] ∧ childNo = parent.objCount then climbRange parent.childNo above
    else (childNo, some ⟨parent, above⟩)

/-- What is added at a leaf, when so many records were gone by. -/
def pushLeaf (start count iter : Nat) (node : BtreeNode) (pp : List (Key × Value)) :
    Option (List (Key × Value) × Bool) :=
  if iter > start then pushAll count node.items pp
  else if iter + node.objCount > start then pushAll count (node.items.drop (start - iter)) pp
  else some (pp, false)

/-- What is added at a record above leaves, when so many were gone by with it. -/
def pushRecord (start count iter : Nat) (node : BtreeNode) (ci : Nat) (pp : List (Key × Value)) :
    Option (List (Key × Value) × Bool) :=
  if iter > start then do pushAll count [← node.items[ci]?] pp else some (pp, false)

/-- The loop of `range`, from a leaf or from a record above leaves on. -/
def rangeLoop (depth start count : Nat) :
    Nat → Store → Place → Nat → Nat → List (Key × Value) → Option (List (Key × Value) × Bool)
  | 0, _, _, _, _, _ => none
  | fuel + 1, store, place, iter, ci, pp =>
    if place.node.isLeaf then do
      let (pp, full) ← pushLeaf start count iter place.node pp
      if full then some (pp, true)
      else
        match climbRange place.node.childNo place.above with
        | (_, none) => some (pp, false)
        | (ci, some parent) =>
          rangeLoop depth start count fuel store parent (iter + place.node.objCount) ci pp
    else if ci = place.node.objCount then some (pp, false)
    else do
      let iter := iter + 1
      let (pp, full) ← pushRecord start count iter place.node ci pp
      if full then some (pp, true)
      else do
        let (store, place) ← place.child store (ci + 1)
        let (store, place) ← place.descend (fun _ => 0) depth store
        rangeLoop depth start count fuel store place iter ci pp

/-- `range`; sizes are of 64 bits. No way down is longer than there are pages, and no more
records are gone by than there are. -/
def Btreedb.range (db : Btreedb) (start end_ : Nat) (pp : List (Key × Value)) :
    Option (List (Key × Value) × Bool) :=
  if end_ < start then some (pp, false)
  else do
    let depth := db.store.sfh.nPages + 1
    let (store, place) ← (⟨db.root, []⟩ : Place).descend (fun _ => 0) depth db.store
    rangeLoop depth start ((end_ - start + 1) % 2 ^ 64) (db.store.sfh.numItems + 1) store place 0 0
      []

def stored (pair : Key × Value) : Item := (pair.1, cell pair.2)

variable {view : View} {store : Store} {place : Place} {node : BtreeNode}
  {height least i depth levels start count fuel : Nat} {above : List BtreeNode}
  {items rest : List Item} {listing done own later pp : List (Key × Value)}

theorem content_cell {value : Value} (hsize : value.length < 2 ^ 64) :
    content (cell value) = some value := by
  have hvsize := Db.peekSize_middle [] value hsize
  have hvalue := Db.peek_middle (Bytes.encode 8 value.length) value []
  rw [List.append_nil, Bytes.encode_length] at hvalue
  unfold content cell
  simp only [Option.bind_eq_bind, Option.bind_some]
  rw [List.nil_append] at hvsize
  rw [show ([] : List UInt8).length = 0 from rfl] at hvsize
  rw [hvsize, Option.bind_some, hvalue]

private theorem packData_stored {pair : Key × Value} (hsize : pair.2.length < 2 ^ 64) :
    packData (stored pair) = some pair := by
  unfold packData stored
  rw [content_cell hsize, Option.map_some]

private theorem pushAll_stored (hsizes : ∀ pair ∈ own, pair.2.length < 2 ^ 64)
    (hlt : pp.length < count) :
    pushAll count (own.map stored) pp =
      some ((pp ++ own).take count, decide (count ≤ (pp ++ own).length)) := by
  induction own generalizing pp with
  | nil =>
    rw [List.append_nil, List.take_of_length_le (Nat.le_of_lt hlt),
      decide_eq_false (Nat.not_le_of_lt hlt)]
    rfl
  | cons pair own ih =>
    rw [List.map_cons, pushAll, packData_stored (hsizes pair List.mem_cons_self)]
    simp only [Option.bind_eq_bind, Option.bind_some]
    have hlength : (pp ++ [pair]).length = pp.length + 1 := by
      rw [List.length_append, List.length_singleton]
    have hsplit : pp ++ pair :: own = pp ++ [pair] ++ own := by simp
    split_ifs with hfull
    · rw [hsplit, List.take_left' hfull, decide_eq_true]
      rw [List.length_append]
      omega
    · rw [ih (fun other hother => hsizes other (List.mem_cons_of_mem pair hother)) (by omega),
        hsplit]

/-- The pairs from `start` on of those that were gone by, up to `count`, and whether these are
all that are asked for. -/
def taken (start count : Nat) (seen : List (Key × Value)) : List (Key × Value) × Bool :=
  ((seen.drop start).take count, decide (count ≤ (seen.drop start).length))

private theorem pushAll_behind (hsizes : ∀ pair ∈ own, pair.2.length < 2 ^ 64)
    (hle : start ≤ done.length)
    (hlt : (done.drop start).length < count) :
    pushAll count (own.map stored) (done.drop start) = some (taken start count (done ++ own)) := by
  rw [pushAll_stored hsizes hlt, taken, List.drop_append_of_le_length hle]

private theorem pushLeaf_taken (hitems : node.items = own.map stored)
    (hsizes : ∀ pair ∈ own, pair.2.length < 2 ^ 64) (hlt : (done.drop start).length < count) :
    pushLeaf start count done.length node (done.drop start) =
      some (taken start count (done ++ own)) := by
  have hcount : node.objCount = own.length := by
    unfold BtreeNode.objCount
    rw [hitems, List.length_map]
  rw [pushLeaf, hitems, hcount]
  by_cases hbehind : done.length > start
  · rw [if_pos hbehind]
    exact pushAll_behind hsizes (Nat.le_of_lt hbehind) hlt
  · have hnone : done.drop start = [] := List.drop_eq_nil_of_le (Nat.le_of_not_lt hbehind)
    have hdrop : (done ++ own).drop start = own.drop (start - done.length) := by
      rw [List.drop_append, hnone, List.nil_append]
    rw [hnone] at hlt
    rw [if_neg hbehind, hnone, taken, hdrop, ← List.map_drop,
      pushAll_stored (fun pair hpair => hsizes pair (List.mem_of_mem_drop hpair)) hlt,
      List.nil_append]
    by_cases hinside : done.length + own.length > start
    · rw [if_pos hinside]
    · have hrest : own.drop (start - done.length) = [] := List.drop_eq_nil_of_le (by omega)
      rw [if_neg hinside, hrest, List.take_nil, decide_eq_false (Nat.not_le_of_lt hlt)]

private theorem pushRecord_taken {pair : Key × Value} (hitem : node.items[i]? = some (stored pair))
    (hsize : pair.2.length < 2 ^ 64) (hlt : (done.drop start).length < count) :
    pushRecord start count (done ++ [pair]).length node i (done.drop start) =
      some (taken start count (done ++ [pair])) := by
  rw [pushRecord, hitem, List.length_append, List.length_singleton]
  by_cases hbehind : done.length + 1 > start
  · have hpushed := @pushAll_behind start count done [pair]
      (fun other hother => by rwa [List.mem_singleton.mp hother]) (Nat.le_of_lt_succ hbehind) hlt
    rw [if_pos hbehind]
    simp only [Option.bind_eq_bind, Option.bind_some]
    exact hpushed
  · have hnone : (done ++ [pair]).drop start = [] := List.drop_eq_nil_of_le (by simp; omega)
    have hbefore : done.drop start = [] := List.drop_eq_nil_of_le (by omega)
    rw [hbefore] at hlt
    rw [if_neg hbehind, taken, hnone, hbefore, List.take_nil, decide_eq_false (Nat.not_le_of_lt hlt)]

theorem taken_full {seen : List (Key × Value)} (hfull : (taken start count seen).2 = true)
    (later : List (Key × Value)) :
    ((taken start count seen).1, true) = taken start count (seen ++ later) := by
  have hle : count ≤ (seen.drop start).length := of_decide_eq_true hfull
  have hmore : count ≤ ((seen ++ later).drop start).length := by
    rw [List.drop_append, List.length_append]
    omega
  rw [taken, taken, decide_eq_true hmore, List.drop_append, List.take_append_of_le_length hle]

private theorem taken_rest {seen : List (Key × Value)}
    (hmore : (taken start count seen).2 = false) :
    (taken start count seen).1 = seen.drop start ∧ (seen.drop start).length < count := by
  have hlt : (seen.drop start).length < count := Nat.lt_of_not_le (of_decide_eq_false hmore)
  exact ⟨List.take_of_length_le (Nat.le_of_lt hlt), hlt⟩

private theorem taken_all (hlt : (done.drop start).length < count) :
    taken start count done = (done.drop start, false) := by
  rw [taken, List.take_of_length_le (Nat.le_of_lt hlt), decide_eq_false (Nat.not_le_of_lt hlt)]

private theorem climbRange_stands (hfits : view.Fits store)
    (hplace : Stands view height least items ⟨node, above⟩) :
    ((climbRange node.childNo above).2 = none ∧ itemsAfter view height node.childNo above = []) ∨
    ∃ place i height' least',
      climbRange node.childNo above = (i, some place) ∧
      Stands view (height' + 1) least' items place ∧
      i ≤ place.node.objCount ∧ (i = place.node.objCount → place.above = []) ∧
      height' + 1 + place.above.length = height + above.length ∧
      itemsAfter view height node.childNo above =
        itemsAfter view height' i (place.node :: place.above) := by
  induction above generalizing height least node with
  | nil => exact Or.inl ⟨rfl, rfl⟩
  | cons parent above ih =>
    obtain ⟨least', hparent, child, left, right, front, back, hwindow⟩ :=
      parent_stands hfits hplace
    have hcount := hwindow.objCount
    rw [climbRange]
    split_ifs with hlast
    · have hback : back = [] := List.eq_nil_of_length_eq_zero (by omega)
      have hright : right = [] :=
        List.eq_nil_of_length_eq_zero (hwindow.right.trans (congrArg List.length hback))
      rw [itemsAfter_window hwindow, hback, hright, List.map_nil, trail_nil, List.nil_append]
      rcases ih hparent with hnone | ⟨place, i, height', least', hcall, hstands, hle, htop, hlevels,
        hafter⟩
      · exact Or.inl hnone
      · exact Or.inr ⟨place, i, height', least', hcall, hstands, hle, htop,
          by rw [hlevels, List.length_cons]; omega, hafter⟩
    · refine Or.inr ⟨⟨parent, above⟩, node.childNo, height, least', rfl, hparent,
        (show node.childNo ≤ parent.objCount by omega), fun hsame => ?_,
        Nat.succ_add_eq_add_succ height above.length, rfl⟩
      by_contra hinner
      exact hlast ⟨hinner, hsame⟩

/-- The states of the loop, with the records that are ahead. -/
inductive Ahead (view : View) (items : List Item) (levels : Nat) :
    Place → Nat → List Item → Prop where
  | leaf {least : Nat} {place : Place} {ci : Nat} (hplace : Stands view 0 least items place)
      (hlevels : place.above.length = levels)
      (hsome : place.above ≠ [] → 1 ≤ place.node.objCount) :
      Ahead view items levels place ci
        (place.node.items ++ itemsAfter view 0 place.node.childNo place.above)
  | record {height least : Nat} {place : Place} {ci : Nat}
      (hplace : Stands view (height + 1) least items place)
      (hlevels : height + 1 + place.above.length = levels) (hle : ci ≤ place.node.objCount)
      (hlast : ci = place.node.objCount → place.above = []) :
      Ahead view items levels place ci
        (itemsAfter view height ci (place.node :: place.above))

private theorem rangeLoop_ahead (hmax : 6 ≤ view.maxKeys) (hlevels : levels < depth)
    (hsizes : ∀ pair ∈ listing, pair.2.length < 2 ^ 64) (hfits : view.Fits store)
    (hahead : Ahead view (listing.map stored) levels place i (later.map stored))
    (hlisting : listing = done ++ later) (hlt : (done.drop start).length < count)
    (hfuel : later.length < fuel) :
    rangeLoop depth start count fuel store place done.length i (done.drop start) =
      some (taken start count listing) := by
  induction fuel generalizing store place i done later with
  | zero => exact absurd hfuel (Nat.not_lt_zero _)
  | succ fuel ih =>
    rw [rangeLoop]
    generalize hrest : later.map stored = rest at hahead
    cases hahead with
    | leaf hplace hheight hsome =>
      obtain ⟨own, behind, rfl, hown, hbehind⟩ := List.map_eq_append_iff.mp hrest
      have hsplit : listing = done ++ own ++ behind := by rw [hlisting, List.append_assoc]
      have hcount : done.length + place.node.objCount = (done ++ own).length := by
        rw [List.length_append, BtreeNode.objCount, ← hown, List.length_map]
      rw [if_pos (hfits.bottom hplace.loaded hplace.shape).leaf,
        pushLeaf_taken hown.symm (fun pair hpair => hsizes pair (by rw [hsplit]; simp [hpair])) hlt]
      simp only [Option.bind_eq_bind, Option.bind_some]
      cases hfull : (taken start count (done ++ own)).2 with
      | true => rw [if_pos rfl, hsplit, taken_full hfull]
      | false =>
        obtain ⟨hall, hlt'⟩ := taken_rest hfull
        rw [if_neg Bool.false_ne_true, hall, hcount]
        rcases climbRange_stands hfits hplace with ⟨hnone, hafter⟩ | ⟨parent, ci, height', least',
          hcall, hparent, hle, hlast, hlevels', hafter⟩
        · rw [hafter, List.map_eq_nil_iff] at hbehind
          rw [hbehind, List.append_nil] at hsplit
          generalize climbRange place.node.childNo place.above = climbed at hnone
          obtain ⟨ci, top⟩ := climbed
          obtain rfl : top = none := hnone
          rw [hsplit, ← hall, ← hfull]
        · rw [hcall]
          rw [hafter] at hbehind
          refine ih hfits ?_ hsplit hlt' ?_
          · rw [hbehind]
            exact .record hparent (hlevels'.trans (by rw [Nat.zero_add, hheight])) hle hlast
          · have habove : place.above ≠ [] := by
              intro htop
              rw [htop] at hcall
              cases hcall
            have hone := hsome habove
            rw [List.length_append] at hfuel hcount
            omega
    | record hplace hheight hle hlast =>
      have hbranch := hfits.branch hplace.loaded hplace.shape
      rw [if_neg (by rw [hbranch.inner]; exact Bool.false_ne_true)]
      by_cases hend : i = place.node.objCount
      · rw [itemsAfter_end hbranch.fanout hend, hlast hend, itemsAfter, List.map_eq_nil_iff] at hrest
        rw [if_pos hend, hlisting, hrest, List.append_nil, taken_all hlt]
      · rw [if_neg hend]
        obtain ⟨sep, store', inner, store'', leaf, least', hsep, hchild, hdescend, hstays, hleaf,
          hsome, hbelow, hlevels', hafter⟩ := down_first hmax hfits hplace
            (Nat.lt_of_le_of_ne hle hend) (show _ < depth by omega)
        rw [hafter] at hrest
        obtain ⟨pair, behind, rfl, rfl, hbehind⟩ := List.map_eq_cons_iff.mp hrest
        have hsplit : listing = done ++ [pair] ++ behind := by
          rw [hlisting, List.append_assoc, List.singleton_append]
        have hiter : done.length + 1 = (done ++ [pair]).length := by
          rw [List.length_append, List.length_singleton]
        simp only [hiter]
        rw [pushRecord_taken hsep (hsizes pair (by rw [hsplit]; simp)) hlt]
        simp only [Option.bind_eq_bind, Option.bind_some]
        cases hfull : (taken start count (done ++ [pair])).2 with
        | true => rw [if_pos rfl, hsplit, taken_full hfull]
        | false =>
          obtain ⟨hall, hlt'⟩ := taken_rest hfull
          rw [if_neg Bool.false_ne_true, hall, hchild]
          simp only [Option.bind_some, hdescend]
          refine ih (hfits.stays hstays) ?_ hsplit hlt' (Nat.lt_of_succ_lt_succ hfuel)
          rw [hbehind]
          exact .leaf hleaf (hlevels'.trans hheight) fun _ => hsome

namespace Btreedb

variable {cmp : Key → Key → Ordering} {mode : Mode} {maxKeys : Nat} {db : Btreedb}
  {given : List (Key × Value)}

theorem Valid.exists_listing (hvalid : Valid cmp maxKeys given db height) :
    ∃ listing : List (Key × Value),
      inorder (View.memory maxKeys) height db.root = listing.map stored ∧
        (∀ pair ∈ listing, pair ∈ given) ∧ listing.length = db.store.sfh.numItems := by
  have hall : ∀ item ∈ inorder (View.memory maxKeys) height db.root,
      ∃ pair, pair ∈ given ∧ stored pair = item := by
    rintro ⟨key, bytes⟩ hitem
    obtain ⟨value, rfl, hfind⟩ := (hvalid.content key bytes).mp hitem
    exact ⟨(key, value), List.mem_of_find?_eq_some hfind, rfl⟩
  obtain ⟨pairs, hpairs⟩ : ∃ pairs : List { pair // pair ∈ given },
      pairs.map (fun pair => stored pair.1) = inorder (View.memory maxKeys) height db.root := by
    refine Set.mem_range.mp ?_
    rw [Set.range_list_map]
    intro item hitem
    obtain ⟨pair, hpair, rfl⟩ := hall item hitem
    exact ⟨⟨pair, hpair⟩, rfl⟩
  have hlisting : inorder (View.memory maxKeys) height db.root =
      (pairs.map Subtype.val).map stored := by
    rw [← hpairs, List.map_map]
    rfl
  refine ⟨pairs.map Subtype.val, hlisting, fun pair hpair => ?_, ?_⟩
  · obtain ⟨given, -, rfl⟩ := List.mem_map.mp hpair
    exact given.2
  · rw [← hvalid.count, hlisting, List.length_map stored]

theorem Valid.range (hmax : 6 ≤ maxKeys) (hvalid : Valid cmp maxKeys given db height)
    (hlisting : inorder (View.memory maxKeys) height db.root = listing.map stored)
    (hsizes : ∀ pair ∈ listing, pair.2.length < 2 ^ 64) {end_ : Nat} (hle : start ≤ end_)
    (hend : end_ < 2 ^ 64 - 1) (pp : List (Key × Value)) :
    db.range start end_ pp =
      some ((listing.drop start).take (end_ - start + 1), decide (end_ < listing.length)) := by
  have hfits := View.memory_fits hvalid.sizes
  have hloaded : db.root.isLoaded = true := hvalid.shape.loaded
  have hroot : Stands (View.memory maxKeys) height (min 1 height) (listing.map stored)
      ⟨db.root, []⟩ := hlisting ▸ stands_root hloaded hvalid.shape
  have hcount := hvalid.count
  rw [hlisting, List.length_map] at hcount
  obtain ⟨store, leaf, least', hdescend, hstays, hleaf, hbefore, hlevels, hsome⟩ :=
    descend_first hmax hfits hroot (Nat.lt_add_one_of_lt hvalid.pages)
  have hfrom := hroot.from_eq hleaf hbefore
  rw [(hfits.stays hstays).inorder_leaf hleaf.loaded, itemsAfter, List.append_nil, hlisting] at hfrom
  have hahead : Ahead (View.memory maxKeys) (listing.map stored) height leaf 0
      (listing.map stored) := by
    have hstart := @Ahead.leaf _ _ _ _ _ 0 hleaf hlevels fun habove => hsome fun hzero => ?_
    · rwa [hfrom] at hstart
    · exact absurd (List.eq_nil_of_length_eq_zero (hlevels.trans hzero)) habove
  have hwalk := rangeLoop_ahead hmax (Nat.lt_add_one_of_lt hvalid.pages) hsizes
    (hfits.stays hstays) hahead (List.nil_append listing).symm
    (show (([] : List (Key × Value)).drop start).length < end_ - start + 1 by simp)
    (Nat.lt_add_one_of_le (Nat.le_of_eq hcount))
  rw [List.drop_nil] at hwalk
  unfold Btreedb.range
  rw [if_neg (Nat.not_lt.mpr hle), Nat.mod_eq_of_lt (by omega)]
  simp only [Option.bind_eq_bind, hdescend, Option.bind_some]
  refine hwalk.trans (congrArg some (congrArg (Prod.mk _) (decide_eq_decide.mpr ?_)))
  rw [List.length_drop]
  omega

/-- After every run of insertions, `range` returns the pairs whose ranks in the order of the tree
are from `start` to `end`, and whether the tree has all of them. -/
theorem range_ranks [Std.TransCmp cmp] [Std.LawfulEqCmp cmp] (hmax : 6 ≤ maxKeys) {pageSize : Nat}
    {actions : List Action} {final : Btreedb}
    (hrun : run (Btreedb.step cmp mode) (create maxKeys pageSize) actions = some final)
    (hsizes : ∀ pair ∈ pairs actions, pair.2.length < 2 ^ 64) :
    ∃ (height : Nat) (listing : List (Key × Value)), Valid cmp maxKeys (pairs actions) final height ∧
      inorder (View.memory maxKeys) height final.root = listing.map stored ∧
      listing.length = final.store.sfh.numItems ∧
      ∀ start end_ pp, start ≤ end_ → end_ < 2 ^ 64 - 1 →
        final.range start end_ pp =
          some ((listing.drop start).take (end_ - start + 1), decide (end_ < listing.length)) := by
  obtain ⟨height, hvalid⟩ := (create_valid cmp maxKeys pageSize).run hmax hrun
  obtain ⟨listing, hlisting, hgiven, hcount⟩ := hvalid.exists_listing
  exact ⟨height, listing, hvalid, hlisting, hcount, fun start end_ pp hle hend =>
    hvalid.range hmax hlisting (fun pair hpair => hsizes pair (hgiven pair hpair)) hle hend pp⟩

/-- The ranges of a tree of seven records in two levels, two of them by name: one goes over the
record in the root, and one is cut short at the end. -/
theorem range_ranks_split : ∃ (final : Btreedb) (height : Nat) (listing : List (Key × Value)),
    run (Btreedb.step compare ⟨3, true⟩) (create 6 1024) splitInserts = some final ∧
      final.root.isLeaf = false ∧
      Valid compare 6 (pairs splitInserts) final height ∧
      inorder (View.memory 6) height final.root = listing.map stored ∧
      listing.length = 7 ∧
      (∀ start end_ pp, start ≤ end_ → end_ < 2 ^ 64 - 1 →
        final.range start end_ pp =
          some ((listing.drop start).take (end_ - start + 1), decide (end_ < 7))) ∧
      final.range 1 5 [] = some ((listing.drop 1).take 5, true) ∧
      final.range 4 9 [] = some ((listing.drop 4).take 6, false) := by
  obtain ⟨final, hrun, hinner⟩ := exists_run_split
  obtain ⟨height, listing, hvalid, hlisting, hcount, hrange⟩ :=
    range_ranks (le_refl 6) hrun (by decide)
  have hseven : listing.length = 7 := hcount.trans hvalid.numItems
  rw [hseven] at hrange
  exact ⟨final, height, listing, hrun, hinner, hvalid, hlisting, hseven, hrange,
    hrange 1 5 [] (by decide) (by decide), hrange 4 9 [] (by decide) (by decide)⟩

end Btreedb

end Libsax.Btree
