import Libsax.Btree.Cursor
import Libsax.Btree.Range

/-! Iteration over a tree in both directions, and the cursor that a search leaves. -/
namespace Libsax.Btree

open Libsax.Lib
open Libsax.Db (Key Value)

def searchInto (cmp : Key → Key → Ordering) (key : Key) :
    Nat → Store → Place → Option (Store × Place × Spot)
  | 0, _, _ => none
  | fuel + 1, store, place => do
    match ← spot cmp key place.node.items with
    | .found i => some (store, place, .found i)
    | .gap low =>
      if place.node.isLeaf then some (store, place, .gap low)
      else do
        let (store, place) ← place.child store low
        searchInto cmp key fuel store place

namespace Btreedb

def search_ (cmp : Key → Key → Ordering) (db : Btreedb) (key : Key) :
    Option (Btreedb × Cursor × Bool) := do
  let (store, place, spot) ← searchInto cmp key (db.store.sfh.nPages + 1) db.store ⟨db.root, []⟩
  let db := { db with store := store }
  match spot with
  | .found i => some (db, ⟨some place, i⟩, true)
  | .gap low =>
    if low ≥ place.node.objCount then do
      let (db, locn, _) ← db.seq_ ⟨some place, pred low⟩ true
      some (db, locn, false)
    else some (db, ⟨some place, low⟩, false)

/-- The records from a cursor on, read one after the other until `seq` returns `false`. -/
def walk (sdir : Bool) : Nat → Btreedb → Cursor → Option (List Item)
  | 0, _, _ => none
  | fuel + 1, db, locn => do
    let item ← locn.item
    let (db, locn, more) ← db.seq_ locn sdir
    if more then (walk sdir fuel db locn).map (item :: ·) else some [item]

end Btreedb

variable {cmp : Key → Key → Ordering} {view : View} {db final : Btreedb}
  {place : Place} {height least i levels maxKeys : Nat} {item : Item}
  {before after items : List Item} {given : List (Key × Value)} {key : Key}

/-- A database in whose tree cursors can move. -/
structure Moves (view : View) (items : List Item) (levels : Nat) (db : Btreedb) : Prop where
  max : 6 ≤ view.maxKeys
  few : FewKeys view items levels
  fits : view.Fits db.store
  pages : levels < db.store.sfh.nPages
  some : db.store.sfh.numItems ≠ 0

theorem Moves.stays (hmoves : Moves view items levels db) {store : Store}
    (hstays : db.store.Stays store) : Moves view items levels { db with store := store } where
  max := hmoves.max
  few := hmoves.few
  fits := hmoves.fits.stays hstays
  pages := by
    show levels < store.sfh.nPages
    rw [hstays.sfh]
    exact hmoves.pages
  some := by
    show store.sfh.numItems ≠ 0
    rw [hstays.sfh]
    exact hmoves.some

theorem seq_next {next : Item} (hmoves : Moves view items levels db)
    (hpoints : Points view items levels place i before item (next :: after)) :
    ∃ db' place' i', db.seq_ ⟨some place, i⟩ true = some (db', ⟨some place', i'⟩, true) ∧
      Moves view items levels db' ∧ Points view items levels place' i' (before ++ [item]) next after := by
  obtain ⟨store', place', i', hcall, hstays, hpoints'⟩ := seqNext_points hmoves.max hmoves.few
    hmoves.fits (Nat.lt_add_one_of_lt hmoves.pages) hpoints
  refine ⟨{ db with store := store' }, place', i', ?_, hmoves.stays hstays, hpoints'⟩
  simp only [Btreedb.seq_, if_neg hmoves.some, if_true, Option.bind_eq_bind]
  rw [hcall]
  rfl

theorem seq_end (hmoves : Moves view items levels db)
    (hpoints : Points view items levels place i before item []) :
    db.seq_ ⟨some place, i⟩ true = some (db, ⟨some place, i + 1⟩, false) ∧
      place.node.objCount = i + 1 := by
  obtain ⟨hcall, hcount⟩ := seqNext_last hmoves.max hmoves.few hmoves.fits hpoints
  refine ⟨?_, hcount⟩
  simp only [Btreedb.seq_, if_neg hmoves.some, if_true, Option.bind_eq_bind]
  rw [hcall]
  rfl

private theorem seq_prev {prev : Item} (hmoves : Moves view items levels db)
    (hpoints : Points view items levels place i (before ++ [prev]) item after) :
    ∃ db' place' i', db.seq_ ⟨some place, i⟩ false = some (db', ⟨some place', i'⟩, true) ∧
      Moves view items levels db' ∧ Points view items levels place' i' before prev (item :: after) := by
  obtain ⟨store', place', i', hcall, hstays, hpoints'⟩ := seqPrev_points hmoves.max hmoves.few
    hmoves.fits (Nat.lt_add_one_of_lt hmoves.pages) hpoints
  refine ⟨{ db with store := store' }, place', i', ?_, hmoves.stays hstays, hpoints'⟩
  simp only [Btreedb.seq_, if_neg hmoves.some, Bool.false_eq_true, if_false, Option.bind_eq_bind]
  rw [hcall]
  rfl

private theorem seq_start (hmoves : Moves view items levels db)
    (hpoints : Points view items levels place i [] item after) :
    db.seq_ ⟨some place, i⟩ false = some (db, ⟨some place, 2 ^ 64 - 1⟩, false) := by
  simp only [Btreedb.seq_, if_neg hmoves.some, Bool.false_eq_true, if_false, Option.bind_eq_bind]
  rw [seqPrev_first hmoves.max hmoves.fits hpoints]
  rfl

theorem walk_forward (hmoves : Moves view items levels db)
    (hpoints : Points view items levels place i before item after) {fuel : Nat}
    (hfuel : after.length < fuel) :
    Btreedb.walk true fuel db ⟨some place, i⟩ = some (item :: after) := by
  induction fuel generalizing db place i before item after with
  | zero => exact absurd hfuel (Nat.not_lt_zero _)
  | succ fuel ih =>
    rw [Btreedb.walk, hpoints.get]
    cases after with
    | nil =>
      simp only [(seq_end hmoves hpoints).1, Option.bind_eq_bind, Option.bind_some]
      rfl
    | cons next after =>
      obtain ⟨db', place', i', hcall, hmoves', hpoints'⟩ := seq_next hmoves hpoints
      simp only [hcall, Option.bind_eq_bind, Option.bind_some, if_true]
      rw [ih hmoves' hpoints' (Nat.lt_of_succ_lt_succ hfuel), Option.map_some]

theorem walk_backward (hmoves : Moves view items levels db)
    (hpoints : Points view items levels place i before item after) {fuel : Nat}
    (hfuel : before.length < fuel) :
    Btreedb.walk false fuel db ⟨some place, i⟩ = some (item :: before.reverse) := by
  induction fuel generalizing db place i before item after with
  | zero => exact absurd hfuel (Nat.not_lt_zero _)
  | succ fuel ih =>
    rw [Btreedb.walk, hpoints.get]
    rcases List.eq_nil_or_concat before with rfl | ⟨before, prev, rfl⟩
    · simp only [seq_start hmoves hpoints, Option.bind_eq_bind, Option.bind_some]
      rfl
    · rw [List.concat_eq_append] at hpoints hfuel
      rw [List.length_append, List.length_singleton] at hfuel
      obtain ⟨db', place', i', hcall, hmoves', hpoints'⟩ := seq_prev hmoves hpoints
      simp only [hcall, Option.bind_eq_bind, Option.bind_some, if_true]
      rw [ih hmoves' hpoints' (Nat.lt_of_succ_lt_succ hfuel), Option.map_some,
        List.concat_eq_append, List.reverse_concat]

section Search

variable [Std.TransCmp cmp] [Std.LawfulEqCmp cmp]

theorem searchInto_absent {store : Store} (hfits : view.Fits store)
    (hplace : Stands view height least items place) (hkeys : Ascending cmp items)
    (habsent : ∀ item ∈ items, item.1 ≠ key)
    (hbelow : Below cmp key (itemsBefore view height place.node.childNo place.above))
    (habove : Above cmp key (itemsAfter view height place.node.childNo place.above))
    (hnarrow : Narrow view height place.node) {fuel : Nat} (hfuel : height < fuel) :
    ∃ store' leaf least' low,
      searchInto cmp key fuel store place = some (store', leaf, .gap low) ∧ store.Stays store' ∧
      Stands view 0 least' items leaf ∧ leaf.above.length = height + place.above.length ∧
      low ≤ leaf.node.objCount ∧
      Below cmp key (itemsBefore view 0 leaf.node.childNo leaf.above ++ leaf.node.items.take low) ∧
      Above cmp key (leaf.node.items.drop low ++ itemsAfter view 0 leaf.node.childNo leaf.above) := by
  induction fuel generalizing height store place least with
  | zero => exact absurd hfuel (Nat.not_lt_zero _)
  | succ fuel ih =>
    have hload := hfits.loaded place.node hplace.loaded
    have htotal := hplace.items
    have hown : ∀ item ∈ inorder view height place.node, item ∈ items := by
      intro item hitem
      rw [← htotal]
      exact List.mem_append_left _ (List.mem_append_right _ hitem)
    have hkeysOwn : Ascending cmp (inorder view height place.node) := by
      rw [← htotal] at hkeys
      exact (Ascending.append_iff.mp (Ascending.append_iff.mp hkeys).1).2.1
    rw [searchInto]
    rcases spot_cases (ascending_items hload hkeysOwn) key with
      ⟨-, hmany⟩ | ⟨i, other, -, hother, hkey⟩ | ⟨gap, hgap, hspot, hbelowGap, haboveGap⟩
    · have hcount := hnarrow.objCount_le
      rw [hload] at hcount
      exact absurd hcount (Nat.not_le_of_lt hmany)
    · exact absurd hkey (habsent other (hown other
        (mem_inorder_of_mem_items hload (List.mem_of_getElem? hother))))
    · rw [hspot]
      simp only [Option.bind_eq_bind, Option.bind_some]
      cases height with
      | zero =>
        rw [if_pos (hfits.bottom hplace.loaded hplace.shape).leaf]
        exact ⟨store, place, least, gap, rfl, Store.Stays.refl store, hplace,
          (Nat.zero_add _).symm, hgap, Below.append_iff.mpr ⟨hbelow, hbelowGap⟩,
          Above.append_iff.mpr ⟨haboveGap, habove⟩⟩
      | succ height =>
        have hbranch := hfits.branch hplace.loaded hplace.shape
        obtain ⟨store', child, node, hcall, hstays, hchild, hnumber, hloads, left, right, front,
          back, hwindow⟩ := child_stands hfits hplace hgap
        have hitems : place.node.items = front ++ back := by
          rw [← hloads.items, hwindow.items, List.append_nil]
        rw [take_left hitems hwindow.front] at hbelowGap
        rw [drop_left hitems hwindow.front] at haboveGap
        -- the whole around the child
        have hwhole := hkeys
        rw [← hchild.items, hnumber, itemsBefore_window hwindow, itemsAfter_window hwindow] at hwhole
        obtain ⟨hfirst, hlast, -⟩ := Ascending.append_iff.mp hwhole
        have hweave := (Ascending.append_iff.mp (Ascending.append_iff.mp hfirst).1).2.1
        have htrail := (Ascending.append_iff.mp hlast).1
        have hbelowChild := Below.weave (by rw [List.length_map, hwindow.left, hwindow.front])
          hweave hbelowGap
        have haboveChild := Above.trail (by rw [List.length_map, hwindow.right]) htrail haboveGap
        have hnarrowChild : Narrow view height child := by
          obtain ⟨child', hchild', hsame⟩ := hloads.child hwindow.child_eq
          have hall := hnarrow.2
          rw [hload] at hall
          exact (hall child' (List.mem_of_getElem? hchild')).congr hsame
        rw [if_neg (by rw [hbranch.inner]; exact Bool.false_ne_true), hcall]
        simp only [Option.bind_some]
        have hbelow' : Below cmp key (itemsBefore view height child.childNo (node :: place.above)) := by
          rw [hnumber, itemsBefore_window hwindow, hloads.childNo]
          exact Below.append_iff.mpr ⟨hbelow, hbelowChild⟩
        have habove' : Above cmp key (itemsAfter view height child.childNo (node :: place.above)) := by
          rw [hnumber, itemsAfter_window hwindow, hloads.childNo]
          exact Above.append_iff.mpr ⟨haboveChild, habove⟩
        obtain ⟨store'', leaf, least', low, hsearch, hstays', hleaf, hlevels, hlow, hbelowLeaf,
          haboveLeaf⟩ := ih (hfits.stays hstays) hchild hbelow' habove' hnarrowChild
            (Nat.lt_of_succ_lt_succ hfuel)
        exact ⟨store'', leaf, least', low, hsearch, hstays.trans hstays', hleaf,
          by rw [hlevels, List.length_cons]; omega, hlow, hbelowLeaf, haboveLeaf⟩

end Search

end Libsax.Btree
