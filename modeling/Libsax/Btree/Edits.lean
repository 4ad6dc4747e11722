import Mathlib.Logic.Function.Basic
import Libsax.Btree.Lookup
import Libsax.Btree.Range

/-! Insertions, deletions, updates and lookups one after the other, on a database whose tree is in
memory: they are answered as by a finite map. -/
namespace Libsax.Btree

open Libsax.Lib
open Libsax.Db (Key Value)

namespace Btreedb

inductive Edit where
  | insert (key : Key) (value : Value)
  | del (key : Key)
  | update (key : Key) (value : Value)
  | find (key : Key)

inductive Reply where
  | done (changed : Bool)
  | found (value : Option Value)
deriving DecidableEq

def edit (cmp : Key → Key → Ordering) (mode : Mode) (db : Btreedb) : Edit → Option (Btreedb × Reply)
  | .insert key value => (db.insert cmp mode key value).map fun out => (out.1, .done out.2)
  | .del key => (db.del cmp key).map fun out => (out.1, .done out.2)
  | .update key value => (db.update cmp mode key value).map fun out => (out.1, .done out.2)
  | .find key => (db.find cmp key).map fun out => (out.1, .found out.2)

/-- The finite map that the database stands for. -/
def Edit.apply (map : Key → Option Value) : Edit → (Key → Option Value) × Reply
  | .insert key value =>
    if (map key).isSome then (map, .done false)
    else (Function.update map key (some value), .done true)
  | .del key => (Function.update map key none, .done (map key).isSome)
  | .update key value => (Function.update map key (some value), .done true)
  | .find key => (map, .found (map key))

/-- The sizes of values are of type `size_t`. -/
def Edit.Sized : Edit → Prop
  | .insert _ value => value.length < 2 ^ 64
  | .update _ value => value.length < 2 ^ 64
  | _ => True

instance : (edit : Edit) → Decidable edit.Sized
  | .insert _ value => inferInstanceAs (Decidable (value.length < 2 ^ 64))
  | .update _ value => inferInstanceAs (Decidable (value.length < 2 ^ 64))
  | .del _ => inferInstanceAs (Decidable True)
  | .find _ => inferInstanceAs (Decidable True)

/-- The tree is a B-tree of some height that holds the map. A deletion leaves a root without
records for the next one to take away. -/
structure Holds (cmp : Key → Key → Ordering) (maxKeys : Nat) (map : Key → Option Value)
    (db : Btreedb) (height : Nat) : Prop where
  sizes : db.store.sfh.maxKeys = maxKeys
  pages : height < db.store.sfh.nPages
  shape : Shape (View.memory maxKeys) height 0 db.root
  ascending : Ascending cmp (inorder (View.memory maxKeys) height db.root)
  content : ∀ key stored, (key, stored) ∈ inorder (View.memory maxKeys) height db.root ↔
    ∃ value, stored = cell value ∧ map key = some value
  count : (inorder (View.memory maxKeys) height db.root).length = db.store.sfh.numItems
  bounded : ∀ key value, map key = some value → value.length < 2 ^ 64

/-- A root without records over a single full leaf, whose split would take a second one. -/
def Stuck (delaySplit : Bool) (db : Btreedb) : Prop :=
  delaySplit = true ∧ db.root.isLeaf = false ∧ db.root.objCount = 0 ∧
    ∃ child ∈ db.root.children, child.isLeaf = true ∧ db.store.sfh.maxKeys ≤ child.objCount

/-- Where the next new key ends the run: in a stuck tree, or at a commit that fails. -/
def Stops (mode : Mode) (db : Btreedb) : Prop :=
  Stuck mode.isDelaySplit db ∨ db.tune mode = none

end Btreedb

namespace Btreedb

variable {cmp : Key → Key → Ordering} {mode : Mode} {delaySplit : Bool} {maxKeys height : Nat}
  {map : Key → Option Value} {db next : Btreedb} {key : Key} {value : Value}

private theorem sameRoom_symm {first second : Option BtreeNode}
    (hrel : Option.Rel SameRoom first second) :
    Option.Rel SameRoom second first := by
  cases hrel with
  | none => exact .none
  | some hsame => exact .some ⟨hsame.isLeaf.symm, hsame.items.symm, hsame.children.symm⟩

theorem Stuck.congr (hmax : next.store.sfh.maxKeys = db.store.sfh.maxKeys)
    (hrel : ∀ way, Option.Rel SameRoom (db.root.follow way) (next.root.follow way))
    (hstuck : Stuck delaySplit db) : Stuck delaySplit next := by
  obtain ⟨hdelay, hinner, hzero, child, hchild, hleaf, hfull⟩ := hstuck
  obtain ⟨i, hi⟩ := List.getElem?_of_mem hchild
  have hbelow := hrel [i]
  have hroot := hrel []
  cases hroot with
  | some hsame =>
    have hcount : next.root.objCount = db.root.objCount := congrArg List.length hsame.items
    rw [BtreeNode.follow, hi] at hbelow
    cases hother : next.root.children[i]? with
    | none =>
      rw [BtreeNode.follow, hother] at hbelow
      cases hbelow
    | some other =>
      rw [BtreeNode.follow, hother] at hbelow
      cases hbelow with
      | some hbelow =>
        have hfew : other.objCount = child.objCount := congrArg List.length hbelow.items
        refine ⟨hdelay, hsame.isLeaf.trans hinner, hcount.trans hzero, other,
          List.mem_of_getElem? hother, hbelow.isLeaf.trans hleaf, ?_⟩
        rw [hmax, hfew]
        exact hfull

theorem Stops.congr (hroot : next.root = db.root) (hstays : db.store.Stays next.store) :
    Stops mode next ↔ Stops mode db := by
  have hnext : next =
      { db with store := { db.store with activeNodeNum := next.store.activeNodeNum } } := by
    obtain ⟨⟨sfh, file, activeNodeNum⟩, root⟩ := next
    obtain ⟨hfile, hsfh⟩ := hstays
    cases hroot
    cases hfile
    cases hsfh
    rfl
  refine or_congr ?_ ?_
  · unfold Stuck
    rw [hroot, hstays.sfh]
  · rw [hnext, tune_active, Option.map_eq_none_iff]

section Holds

variable (hholds : Holds cmp maxKeys map db height)
include hholds

theorem Holds.mem_keys_iff :
    key ∈ (inorder (View.memory maxKeys) height db.root).map Prod.fst ↔ (map key).isSome := by
  rw [List.mem_map, Option.isSome_iff_exists]
  constructor
  · rintro ⟨⟨key, stored⟩, hitem, rfl⟩
    obtain ⟨value, -, hvalue⟩ := (hholds.content _ _).mp hitem
    exact ⟨value, hvalue⟩
  · rintro ⟨value, hvalue⟩
    exact ⟨(key, cell value), (hholds.content _ _).mpr ⟨value, rfl, hvalue⟩, rfl⟩

theorem Holds.forget [Std.TransCmp cmp] [Std.LawfulEqCmp cmp] {height' : Nat}
    (hsizes : next.store.sfh.maxKeys = maxKeys) (hpages : height' < next.store.sfh.nPages)
    (hshape : Shape (View.memory maxKeys) height' 0 next.root)
    (hitems : inorder (View.memory maxKeys) height' next.root =
      without cmp key (inorder (View.memory maxKeys) height db.root))
    (hcount : next.store.sfh.numItems =
      if (map key).isSome then db.store.sfh.numItems - 1 else db.store.sfh.numItems) :
    Holds cmp maxKeys (Function.update map key none) next height' := by
  refine ⟨hsizes, hpages, hshape, ?_, ?_, ?_, ?_⟩
  · rw [hitems]
    exact hholds.ascending.without
  · intro other stored
    have hsame : cmp other key = .eq ↔ other = key := Std.LawfulEqCmp.compare_eq_iff_eq
    rw [hitems, mem_without, hholds.content]
    by_cases hkey : other = key
    · subst hkey
      simp [hsame]
    · simp [hsame, hkey]
  · rw [hitems, hcount]
    by_cases hkey : (map key).isSome
    · obtain ⟨⟨other, stored⟩, hitem, rfl⟩ := List.mem_map.mp (hholds.mem_keys_iff.mpr hkey)
      have hlength := hholds.ascending.length_without hitem
      rw [if_pos hkey, ← hholds.count]
      omega
    · rw [if_neg hkey, ← hholds.count, without_eq_self]
      intro item hitem hsame
      rw [← Std.LawfulEqCmp.eq_of_compare hsame] at hkey
      exact hkey (hholds.mem_keys_iff.mp (List.mem_map_of_mem hitem))
  · intro other value hvalue
    by_cases hkey : other = key
    · subst hkey
      rw [Function.update_self] at hvalue
      cases hvalue
    · rw [Function.update_of_ne hkey] at hvalue
      exact hholds.bounded other value hvalue

theorem Holds.delete_root [Std.TransCmp cmp] [Std.LawfulEqCmp cmp] (hsix : 6 ≤ maxKeys)
    (hsize : maxKeys ≤ 2 ^ 30) (key : Key) {store : Store} {root : BtreeNode}
    {height' least less : Nat} (hstays : db.store.Stays store)
    (hshape : Shape (View.memory maxKeys) height' least root)
    (hless : less + 1 ≤ least ∨ height' = 0 ∧ less = 0) (hheight : height' ≤ height)
    (hsame : inorder (View.memory maxKeys) height' root =
      inorder (View.memory maxKeys) height db.root) :
    ∃ store' root', Btree.delete cmp (store.sfh.nPages + 1) store root key =
        some (store', root', (map key).isSome) ∧
      Holds cmp maxKeys (Function.update map key none)
        ⟨if (map key).isSome then store'.discountItem else store', root'⟩ height' := by
  have hkeys := hholds.ascending
  have hpages := hholds.pages
  rw [← hsame] at hkeys
  obtain ⟨store', root', hdelete, hstays', -, hshape', hitems⟩ :=
    delete_deletes (View.memory_inMemory maxKeys) hsix (show maxKeys < 2 ^ 64 by omega)
      (by rw [hstays.sfh]; exact hholds.sizes) hshape hless hkeys
      (show height' < store.sfh.nPages + 1 by rw [hstays.sfh]; omega)
  have hfile := (hstays.trans hstays').sfh
  have hfound : decide (key ∈ (inorder (View.memory maxKeys) height db.root).map Prod.fst) =
      (map key).isSome := by
    rw [Bool.eq_iff_iff, decide_eq_true_iff]
    exact hholds.mem_keys_iff
  rw [hsame] at hdelete hitems
  rw [hfound] at hdelete
  refine ⟨store', root', hdelete, hholds.forget ?_ ?_ (hshape'.weaken (Nat.zero_le _)) hitems ?_⟩
  all_goals
    cases (map key).isSome
    all_goals simp only [Store.discountItem, if_true, if_false, hfile, Bool.false_eq_true]
  · exact hholds.sizes
  · exact hholds.sizes
  · omega
  · omega

theorem Holds.del [Std.TransCmp cmp] [Std.LawfulEqCmp cmp] (hsix : 6 ≤ maxKeys)
    (hsize : maxKeys ≤ 2 ^ 30) (key : Key) : ∃ next height',
      db.del cmp key = some (next, (map key).isSome) ∧
      Holds cmp maxKeys (Function.update map key none) next height' := by
  have hmem := View.memory_inMemory maxKeys
  have hshape := hholds.shape
  unfold Btreedb.del
  cases height with
  | zero =>
    have hleaf : db.root.isLeaf = true := (hmem.shape_iff.mp hshape).2.1
    obtain ⟨store', root', hdelete, hnext⟩ := hholds.delete_root hsix hsize key
      (Store.Stays.refl db.store) hshape (.inr ⟨rfl, rfl⟩) (Nat.le_refl 0) rfl
    rw [if_neg (by rw [hleaf]; simp)]
    simp only [Option.bind_eq_bind, Option.bind_some, hdelete]
    exact ⟨_, 0, rfl, hnext⟩
  | succ height =>
    have hbranch := hmem.branch hshape
    by_cases hzero : db.root.objCount = 0
    · -- the only child takes the place of the root
      obtain ⟨child, hchildren⟩ := List.length_eq_one_iff.mp
        (hbranch.fanout.trans (congrArg (· + 1) hzero))
      have hitems : db.root.items = [] := List.eq_nil_of_length_eq_zero hzero
      have hchild := (hbranch.below child (by rw [hchildren]; exact List.mem_cons_self)).2
      have hsame : inorder (View.memory maxKeys) height child =
          inorder (View.memory maxKeys) (height + 1) db.root := by
        rw [inorder, hmem.load, hchildren, hitems, List.map_singleton, weave_one]
      obtain ⟨store', root', hdelete, hnext⟩ := hholds.delete_root hsix hsize key
        (show db.store.Stays db.store.release from ⟨rfl, rfl⟩) hchild
        (.inl (show maxKeys / 3 - 1 - 1 + 1 ≤ maxKeys / 3 - 1 by omega)) (Nat.le_succ height) hsame
      rw [if_pos (by rw [hzero, hbranch.inner]; rfl), hchildren]
      simp only [Option.bind_eq_bind, Option.bind_some, List.getElem?_cons_zero, hdelete]
      exact ⟨_, height, rfl, hnext⟩
    · obtain ⟨store', root', hdelete, hnext⟩ := hholds.delete_root hsix hsize key
        (Store.Stays.refl db.store)
        (hshape.weaken (show 1 ≤ db.root.objCount from Nat.pos_of_ne_zero hzero))
        (.inl (Nat.le_refl 1)) (Nat.le_refl _) rfl
      rw [if_neg (by simp [hzero])]
      simp only [Option.bind_eq_bind, Option.bind_some, hdelete]
      exact ⟨_, height + 1, rfl, hnext⟩

theorem Holds.learn [Std.TransCmp cmp] {height' : Nat} (hsizes : next.store.sfh.maxKeys = maxKeys)
    (hpages : height' < next.store.sfh.nPages)
    (hshape : Shape (View.memory maxKeys) height' 0 next.root)
    (hinserted : Inserted cmp (key, cell value) (inorder (View.memory maxKeys) height db.root)
      (inorder (View.memory maxKeys) height' next.root))
    (hcount : next.store.sfh.numItems = db.store.sfh.numItems + 1) (hvalue : value.length < 2 ^ 64) :
    map key = none ∧ Holds cmp maxKeys (Function.update map key (some value)) next height' := by
  have hnew : map key = none := by
    cases hfound : map key with
    | none => rfl
    | some stored =>
      have hold := (hholds.content key _).mpr ⟨stored, rfl, hfound⟩
      exact (hinserted.absent hold rfl).elim
  refine ⟨hnew, hsizes, hpages, hshape, hinserted.ascending hholds.ascending, ?_, ?_, ?_⟩
  · intro other stored
    rw [hinserted.perm.mem_iff, List.mem_cons, hholds.content, Prod.mk.injEq]
    by_cases hkey : other = key
    · subst hkey
      simp [hnew]
    · simp [hkey]
  · rw [hinserted.length, hholds.count, hcount]
  · intro other stored hstored
    by_cases hkey : other = key
    · subst hkey
      rw [Function.update_self] at hstored
      obtain rfl := Option.some.inj hstored
      exact hvalue
    · rw [Function.update_of_ne hkey] at hstored
      exact hholds.bounded other stored hstored

theorem Holds.grow (hsix : 6 ≤ maxKeys) (hfree : ¬ Stuck delaySplit db) :
    ∃ store' root' height' least, growRoot db.store db.root = some (store', root') ∧
      db.store.Leads store' ∧ root'.isLoaded = true ∧
      Shape (View.memory maxKeys) height' least root' ∧
      (height' ≠ 0 → Spare (View.memory maxKeys) delaySplit root') ∧ root'.objCount < maxKeys ∧
      inorder (View.memory maxKeys) height' root' = inorder (View.memory maxKeys) height db.root ∧
      store'.sfh.numItems = db.store.sfh.numItems ∧ height' < store'.sfh.nPages := by
  have hmem := View.memory_inMemory maxKeys
  have hloaded := hmem.loaded hholds.shape
  have hpages := hholds.pages
  have hsizes := hholds.sizes
  by_cases hrecords : min 1 height ≤ db.root.objCount
  · obtain ⟨store', root', height', hgrow, hgrown⟩ := growRoot_grown (View.memory_fits hsizes) hsix
      hloaded trivial (hholds.shape.weaken hrecords)
    have hmore := hgrown.pages
    refine ⟨store', root', height', _, hgrow, hgrown.leads, hgrown.loaded, hgrown.shape, ?_,
      hgrown.room, hgrown.same, hgrown.count, by omega⟩
    intro hheight
    have hleast : min 1 height' ≤ root'.objCount := hgrown.shape.least_le
    exact .inl (by omega)
  · have hzero : db.root.objCount = 0 := by omega
    refine ⟨db.store, db.root, height, 0, ?_, Store.Leads.refl _, hloaded, hholds.shape, ?_, by omega,
      rfl, rfl, hpages⟩
    · unfold growRoot
      rw [if_neg (by omega)]
    · intro hheight
      have hinner := (hmem.shape_iff.mp hholds.shape).2.1
      rw [decide_eq_false hheight] at hinner
      refine .inr fun child hchild => ?_
      by_contra hfull
      obtain ⟨hmany, hsplits⟩ := not_or.mp hfull
      rw [Bool.not_eq_true, Bool.or_eq_false_iff, Bool.not_eq_false', Bool.not_eq_false'] at hsplits
      exact hfree ⟨hsplits.2, hinner, hzero, child, hchild, hsplits.1, by
        rw [hsizes]
        exact Nat.le_of_not_lt hmany⟩

theorem Holds.insertKey [Std.TransCmp cmp] [Std.LawfulEqCmp cmp] (hsix : 6 ≤ maxKeys)
    (hsize : maxKeys ≤ 2 ^ 30) (hfree : ¬ Stuck delaySplit db) (key : Key)
    (hvalue : value.length < 2 ^ 64) : ∃ next height',
      db.insertKey cmp delaySplit key value = some (next, (map key).isNone) ∧
      Holds cmp maxKeys (if (map key).isSome then map else Function.update map key (some value))
        next height' := by
  obtain ⟨store', root', height', least, hgrow, hleads, hloaded, hshape, hspare, hroom, hsame, hcount,
    hpages⟩ := hholds.grow hsix hfree
  have hkeys := hholds.ascending
  rw [← hsame] at hkeys
  unfold Btreedb.insertKey
  rw [hgrow]
  simp only [Option.bind_eq_bind, Option.bind_some]
  rcases insertInto_inserts ((View.memory_fits hholds.sizes).leads hleads) hsix hloaded hshape hspare
    hroom hkeys (show height' < store'.sfh.nPages + 1 by omega) with
    ⟨store'', root'', inserted, hresult, hkept, hanswer⟩ | ⟨-, hwide⟩
  · rw [hresult]
    rw [hsame, hcount] at hanswer
    have hsizes'' := (hkept.leads.maxKeys.trans hleads.maxKeys).trans hholds.sizes
    have hpages'' := Nat.lt_of_lt_of_le hpages hkept.leads.nPages
    have hshape'' := hkept.shape.weaken (Nat.zero_le _)
    refine ⟨⟨store'', root''⟩, height', ?_⟩
    cases hanswer with
    | inserted hinserted hmore =>
      obtain ⟨hnew, hnext⟩ := @Holds.learn _ _ _ _ _ ⟨store'', root''⟩ _ _ hholds _ _ hsizes''
        hpages'' hshape'' hinserted hmore hvalue
      rw [hnew]
      exact ⟨rfl, hnext⟩
    | present hstays hpresent hstill =>
      have hold : (map key).isSome := by
        obtain ⟨other, hother, hkey⟩ := hpresent
        exact hholds.mem_keys_iff.mp (List.mem_map.mpr ⟨other, hother, hkey⟩)
      obtain ⟨stored, hstored⟩ := Option.isSome_iff_exists.mp hold
      rw [if_pos hold, hstored]
      refine ⟨rfl, hsizes'', hpages'', hshape'', ?_, ?_, ?_, hholds.bounded⟩
      · rw [hstays]
        exact hholds.ascending
      · rw [hstays]
        exact hholds.content
      · rw [hstays, hstill, hholds.count]
  · exact absurd (hshape.narrow hsize) hwide

theorem Holds.insertKey_none (hsix : 6 ≤ maxKeys) (hstuck : Stuck delaySplit db) (key : Key)
    (value : Value) : db.insertKey cmp delaySplit key value = none := by
  have hmem := View.memory_inMemory maxKeys
  obtain ⟨rfl, hinner, hzero, child, hchild, hleaf, hfull⟩ := hstuck
  have hsizes := hholds.sizes
  cases height with
  | zero =>
    have hbottom : db.root.isLeaf = true := (hmem.shape_iff.mp hholds.shape).2.1
    rw [hinner] at hbottom
    cases hbottom
  | succ height =>
    have hbranch := hmem.branch hholds.shape
    have hitems : db.root.items = [] := List.eq_nil_of_length_eq_zero hzero
    obtain ⟨only, hchildren⟩ := List.length_eq_one_iff.mp
      (hbranch.fanout.trans (congrArg (· + 1) hzero))
    obtain rfl : child = only := by
      rw [hchildren] at hchild
      exact List.mem_singleton.mp hchild
    have hgrow : growRoot db.store db.root = some (db.store, db.root) := by
      unfold growRoot
      rw [if_neg (by omega)]
    have hfirst := hmem.loadChild db.store hholds.shape (Nat.zero_le db.root.objCount)
    have hsecond : loadChild db.store db.root 1 = none := by
      unfold loadChild
      rw [if_neg (by rw [hinner]; exact Bool.false_ne_true), hchildren]
      rfl
    have hsplit : split3Leaf db.store db.root 0 = none := by
      unfold split3Leaf
      simp only [hfirst, Nat.zero_add, hsecond, Option.bind_eq_bind, Option.bind_some,
        Option.bind_none]
    have hroom : makeRoom cmp true db.store db.root 0 (key, cell value) = none := by
      unfold makeRoom leftOrSplit splitBoth
      simp only [hchildren, List.getElem?_cons_zero, Option.bind_eq_bind, Option.bind_some, hleaf,
        hzero, hsplit, Nat.lt_irrefl, if_false, Bool.not_true, Bool.or_self, Bool.false_eq_true,
        if_neg (Nat.not_lt.mpr hfull), Option.bind_none]
    have hspot : spot cmp key [] = some (.gap 0) := rfl
    unfold Btreedb.insertKey insertInto
    simp only [hgrow, hitems, hspot, hinner, hfirst, hroom, Option.bind_eq_bind, Option.bind_some,
      Option.bind_none, Bool.false_eq_true, if_false]

theorem Holds.rewritten
    (hrewritten : Rewritten maxKeys height 0 db.store db.root next.store next.root) :
    Holds cmp maxKeys map next height := by
  have hcounts := hrewritten.counts
  refine ⟨hcounts.maxKeys.trans hholds.sizes,
    Nat.lt_of_lt_of_eq hholds.pages hcounts.nPages.symm, hrewritten.shape, ?_, ?_, ?_,
    hholds.bounded⟩
  · rw [hrewritten.same]
    exact hholds.ascending
  · rw [hrewritten.same]
    exact hholds.content
  · rw [hrewritten.same]
    exact hholds.count.trans hcounts.numItems.symm

theorem Holds.tune (htune : db.tune mode = some next) : Holds cmp maxKeys map next height :=
  hholds.rewritten (tune_rewritten htune hholds.shape)

theorem Holds.stuck_tune (htune : db.tune mode = some next) :
    Stuck delaySplit next ↔ Stuck delaySplit db := by
  have hmax := (tune_rewritten htune hholds.shape).counts.maxKeys
  have hrel := tune_follow htune
  exact ⟨.congr hmax.symm fun way => sameRoom_symm (hrel way), .congr hmax hrel⟩

theorem Holds.insert [Std.TransCmp cmp] [Std.LawfulEqCmp cmp] (hsix : 6 ≤ maxKeys)
    (hsize : maxKeys ≤ 2 ^ 30) (hfree : ¬ Stops mode db) (key : Key)
    (hvalue : value.length < 2 ^ 64) : ∃ next height',
      db.insert cmp mode key value = some (next, (map key).isNone) ∧
      Holds cmp maxKeys (if (map key).isSome then map else Function.update map key (some value))
        next height' := by
  obtain ⟨hstuck, hcommit⟩ := not_or.mp hfree
  obtain ⟨tuned, htune⟩ := Option.ne_none_iff_exists'.mp hcommit
  unfold Btreedb.insert
  rw [htune, Option.bind_eq_bind, Option.bind_some]
  exact (hholds.tune htune).insertKey hsix hsize (mt (hholds.stuck_tune htune).mp hstuck) key hvalue

theorem Holds.insert_none (hsix : 6 ≤ maxKeys) (hstops : Stops mode db) (key : Key)
    (value : Value) : db.insert cmp mode key value = none := by
  unfold Btreedb.insert
  cases htune : db.tune mode with
  | none => rfl
  | some tuned =>
    have hstuck : Stuck mode.isDelaySplit db :=
      hstops.resolve_right (by rw [htune]; exact Option.some_ne_none tuned)
    exact (hholds.tune htune).insertKey_none hsix ((hholds.stuck_tune htune).mpr hstuck) key value

theorem Holds.stays (hroot : next.root = db.root) (hstays : db.store.Stays next.store) :
    Holds cmp maxKeys map next height := by
  refine ⟨?_, ?_, ?_, ?_, ?_, ?_, hholds.bounded⟩
  · rw [hstays.sfh]
    exact hholds.sizes
  · rw [hstays.sfh]
    exact hholds.pages
  · rw [hroot]
    exact hholds.shape
  · rw [hroot]
    exact hholds.ascending
  · rw [hroot]
    exact hholds.content
  · rw [hroot, hstays.sfh]
    exact hholds.count

theorem Holds.change [Std.TransCmp cmp] {root' : BtreeNode} {old : Value} (hold : map key = some old)
    (halters : Alters (View.memory maxKeys) height 0 (key, cell old) (cell value) db.root root')
    (hvalue : value.length < 2 ^ 64) :
    Holds cmp maxKeys (Function.update map key (some value)) { db with root := root' } height := by
  obtain ⟨before, after, hbefore, hafter⟩ := halters.records
  have hkeys := hholds.ascending
  rw [hbefore] at hkeys
  have hmiddle := Ascending.middle_iff.mp hkeys
  have hbelow := hmiddle.2.1
  have habove := hmiddle.2.2.1
  refine ⟨hholds.sizes, hholds.pages, halters.shape, ?_, ?_, ?_, ?_⟩
  · rw [hafter]
    exact Ascending.middle_iff.mpr hmiddle
  · intro other stored
    rw [hafter, List.mem_append, List.mem_cons, Prod.mk.injEq]
    by_cases hkey : other = key
    · subst hkey
      have hnotBefore : (other, stored) ∉ before := fun hmem => hbelow.ne hmem rfl
      have hnotAfter : (other, stored) ∉ after := fun hmem => habove.ne hmem rfl
      simp [hnotBefore, hnotAfter]
    · have hcontent := hholds.content other stored
      rw [hbefore, List.mem_append, List.mem_cons, Prod.mk.injEq] at hcontent
      simpa [hkey] using hcontent
  · rw [hafter, List.length_append, List.length_cons, ← hholds.count, hbefore, List.length_append,
      List.length_cons]
  · intro other stored hstored
    by_cases hkey : other = key
    · subst hkey
      rw [Function.update_self] at hstored
      obtain rfl := Option.some.inj hstored
      exact hvalue
    · rw [Function.update_of_ne hkey] at hstored
      exact hholds.bounded other stored hstored

section Search

variable [Std.TransCmp cmp] [Std.LawfulEqCmp cmp] (hsix : 6 ≤ maxKeys) (hsize : maxKeys ≤ 2 ^ 30)

include hsize in
theorem Holds.search_found (hvalue : map key = some value) : ∃ place i,
    db.search_ cmp key = some (db, ⟨some place, i⟩, true) ∧
    place.node.items[i]? = some (key, cell value) ∧
    ∀ stored, ∃ root', Alters (View.memory maxKeys) height 0 (key, cell value) stored db.root root' ∧
      ({ place.node with
        isDirty := true
        items := place.node.items.set i (key, stored) } : BtreeNode).plug place.above = root' := by
  have hpages := hholds.pages
  obtain ⟨place, i, hsearch, hitem, hchange⟩ := searchInto_found (View.memory_inMemory maxKeys)
    db.store [] hsize hholds.shape hholds.ascending
    ((hholds.content key (cell value)).mpr ⟨value, rfl, hvalue⟩)
    (show height < db.store.sfh.nPages + 1 by omega)
  refine ⟨place, i, ?_, hitem, hchange⟩
  unfold Btreedb.search_
  simp only [hsearch, Option.bind_eq_bind, Option.bind_some]

include hsix hsize in
theorem Holds.search_absent (hnone : map key = none) : ∃ next locn,
    db.search_ cmp key = some (next, locn, false) := by
  have hmem := View.memory_inMemory maxKeys
  have hroot := stands_root (hmem.loaded hholds.shape) hholds.shape
  have hpages := hholds.pages
  by_cases hempty : inorder (View.memory maxKeys) height db.root = []
  · have hzero : db.store.sfh.numItems = 0 := by
      rw [← hholds.count, hempty]
      rfl
    cases height with
    | zero =>
      have hleaf : db.root.isLeaf = true := (hmem.shape_iff.mp hholds.shape).2.1
      have hitems : db.root.items = [] := hempty
      have hspot : spot cmp key [] = some (.gap 0) := rfl
      unfold Btreedb.search_ searchInto
      simp only [hitems, hspot, hleaf, Option.bind_eq_bind, Option.bind_some, if_true]
      unfold Btreedb.seq_
      simp only [BtreeNode.objCount, hitems, List.length_nil, Nat.le_refl, hzero, if_true, ge_iff_le,
        Option.bind_some]
      exact ⟨_, _, rfl⟩
    | succ height =>
      -- below a root there are records
      obtain ⟨left, child, right, front, back, hwindow⟩ :=
        (hmem.branch hholds.shape).window_one (Nat.zero_le db.root.objCount)
      have hchild := ((hmem.branch hholds.shape).below child (hwindow.mem List.mem_cons_self)).2
      obtain ⟨item, after, -, hitems⟩ := findSucc_first db.store hmem hsix hchild
        (show 1 ≤ maxKeys / 3 - 1 by omega) (Nat.lt_succ_self height)
      have hmember : item ∈ inorder (View.memory maxKeys) (height + 1) db.root := by
        refine hwindow.mem_inorder (hmem.load db.root) ?_
        rw [List.map_singleton, weave_one, hitems]
        exact List.mem_cons_self
      rw [hempty] at hmember
      cases hmember
  · have habsent : ∀ item ∈ inorder (View.memory maxKeys) height db.root, item.1 ≠ key := by
      rintro item hitem rfl
      have hsome := hholds.mem_keys_iff.mp (List.mem_map_of_mem hitem)
      rw [hnone] at hsome
      cases hsome
    have hmoves : Moves (View.memory maxKeys) (inorder (View.memory maxKeys) height db.root) height db := by
      refine ⟨hsix, .inl (hsize.trans (by decide)), View.memory_fits hholds.sizes, hpages, ?_⟩
      rw [← hholds.count]
      exact mt List.eq_nil_of_length_eq_zero hempty
    obtain ⟨next, locn, hsearch, -⟩ := Btree.search_absent hmoves hroot hempty hholds.ascending
      habsent (hholds.shape.narrow hsize)
    exact ⟨next, locn, hsearch⟩

include hsix hsize in
theorem Holds.find (key : Key) : ∃ next, db.find cmp key = some (next, map key) ∧
    Holds cmp maxKeys map next height := by
  unfold Btreedb.find
  cases hvalue : map key with
  | none =>
    obtain ⟨next, locn, hsearch⟩ := hholds.search_absent hsix hsize hvalue
    obtain ⟨hroot, hstays⟩ := search_stays hsearch
    rw [hsearch]
    exact ⟨next, rfl, hholds.stays hroot hstays⟩
  | some value =>
    obtain ⟨place, i, hsearch, hitem, -⟩ := hholds.search_found hsize hvalue
    have hcell : (⟨some place, i⟩ : Cursor).item = some (key, cell value) := hitem
    rw [hsearch]
    simp only [Option.bind_eq_bind, Option.bind_some, if_true, hcell,
      content_cell (hholds.bounded key value hvalue)]
    exact ⟨db, rfl, hholds⟩

include hsix hsize in
theorem Holds.update (key : Key) (hfree : map key = none → ¬ Stops mode db)
    (hvalue : value.length < 2 ^ 64) : ∃ next height',
      db.update cmp mode key value = some (next, true) ∧
      Holds cmp maxKeys (Function.update map key (some value)) next height' := by
  unfold Btreedb.update
  cases hfound : map key with
  | none =>
    obtain ⟨other, locn, hsearch⟩ := hholds.search_absent hsix hsize hfound
    obtain ⟨hroot, hstays⟩ := search_stays hsearch
    have hother := hholds.stays hroot hstays
    have hfree' : ¬ Stops mode other := mt (Stops.congr hroot hstays).mp (hfree hfound)
    obtain ⟨next, height', hinsert, hnext⟩ := hother.insert hsix hsize hfree' key hvalue
    rw [hfound] at hinsert hnext
    rw [hsearch]
    exact ⟨next, height', hinsert, hnext⟩
  | some old =>
    obtain ⟨place, i, hsearch, hitem, hchange⟩ := hholds.search_found hsize hfound
    obtain ⟨root', halters, hplug⟩ := hchange (cell value)
    rw [hsearch]
    simp only [Option.bind_eq_bind, Option.bind_some, if_true, hitem, hplug]
    exact ⟨_, height, rfl, hholds.change hfound halters hvalue⟩

end Search

end Holds

theorem create_holds (cmp : Key → Key → Ordering) (maxKeys pageSize : Nat) :
    Holds cmp maxKeys (fun _ => none) (create maxKeys pageSize) 0 := by
  refine ⟨rfl, Nat.zero_lt_one, ⟨⟨rfl, rfl, rfl⟩, Nat.zero_le _, Nat.zero_le _⟩, ascending_nil,
    fun key stored => ⟨fun hmem => absurd hmem List.not_mem_nil, ?_⟩, rfl, ?_⟩
  · rintro ⟨value, -, hvalue⟩
    cases hvalue
  · rintro key value ⟨⟩

def Edit.Adds (map : Key → Option Value) : Edit → Prop
  | .insert _ _ => True
  | .update key _ => map key = none
  | _ => False

section Runs

variable [Std.TransCmp cmp] [Std.LawfulEqCmp cmp] (hsix : 6 ≤ maxKeys) (hsize : maxKeys ≤ 2 ^ 30)
include hsix hsize

/-- One edit: it is answered as by the map, unless it is to put a key in and the run stops there. -/
theorem Holds.edit_cases (hholds : Holds cmp maxKeys map db height) {edit : Edit}
    (hsized : edit.Sized) :
    (edit.Adds map ∧ Stops mode db ∧ db.edit cmp mode edit = none) ∨
    ¬ (edit.Adds map ∧ Stops mode db) ∧ ∃ next height',
      db.edit cmp mode edit = some (next, (edit.apply map).2) ∧
        Holds cmp maxKeys (edit.apply map).1 next height' := by
  cases edit with
  | insert key value =>
    by_cases hstops : Stops mode db
    · exact .inl ⟨trivial, hstops, by rw [edit, hholds.insert_none hsix hstops]; rfl⟩
    · obtain ⟨next, height', hinsert, hnext⟩ := hholds.insert hsix hsize hstops key hsized
      refine .inr ⟨fun hboth => hstops hboth.2, next, height', ?_⟩
      rw [edit, hinsert]
      cases hfound : map key with
      | none =>
        rw [hfound] at hnext
        simpa [Edit.apply, hfound] using hnext
      | some old =>
        rw [hfound] at hnext
        simpa [Edit.apply, hfound] using hnext
  | del key =>
    obtain ⟨next, height', hdel, hnext⟩ := hholds.del hsix hsize key
    exact .inr ⟨And.left, next, height', by rw [edit, hdel]; rfl, hnext⟩
  | update key value =>
    by_cases hadds : map key = none ∧ Stops mode db
    · obtain ⟨next, locn, hsearch⟩ := hholds.search_absent hsix hsize hadds.1
      obtain ⟨hroot, hstays⟩ := search_stays hsearch
      have hstops : Stops mode next := (Stops.congr hroot hstays).mpr hadds.2
      refine .inl ⟨hadds.1, hadds.2, ?_⟩
      have hnone := (hholds.stays hroot hstays).insert_none hsix hstops key value
      rw [edit, Btreedb.update, hsearch]
      simp only [Option.bind_eq_bind, Option.bind_some, Bool.false_eq_true, if_false, hnone,
        Option.map_none]
    · obtain ⟨next, height', hupdate, hnext⟩ := hholds.update hsix hsize key
        (fun hnone hstops => hadds ⟨hnone, hstops⟩) hsized
      exact .inr ⟨hadds, next, height', by rw [edit, hupdate]; rfl, hnext⟩
  | find key =>
    obtain ⟨next, hfind, hnext⟩ := hholds.find hsix hsize key
    exact .inr ⟨And.left, next, height, by rw [edit, hfind]; rfl, hnext⟩

private theorem serve_holds {pageSize : Nat} {edits : List Edit} {final : Btreedb}
    {replies : List Reply}
    (hsized : ∀ edit ∈ edits, edit.Sized)
    (hserve : serve (Btreedb.edit cmp mode) (create maxKeys pageSize) edits =
      some (final, replies)) :
    (∃ height, Holds cmp maxKeys (replay Edit.apply (fun _ => none) edits).1 final height) ∧
      replies = (replay Edit.apply (fun _ => none) edits).2 := by
  refine serve_refines (fun db map => ∃ height, Holds cmp maxKeys map db height)
    (fun {db map edit next reply} hsized hholds hedit => ?_) hsized
      ⟨0, create_holds cmp maxKeys pageSize⟩ hserve
  obtain ⟨height, hholds⟩ := hholds
  rcases hholds.edit_cases hsix hsize hsized with ⟨-, -, hnone⟩ | ⟨-, other, height', hresult, hnext⟩
  · rw [hnone] at hedit
    cases hedit
  · rw [hresult] at hedit
    cases hedit
    exact ⟨⟨height', hnext⟩, rfl⟩

/-- In every run of insertions, deletions, updates and lookups, each of them is answered as by a
finite map, and the tree is a B-tree that holds the map. -/
theorem edits_refine {pageSize : Nat} {edits : List Edit} {final : Btreedb} {replies : List Reply}
    (hsized : ∀ edit ∈ edits, edit.Sized)
    (hserve : serve (Btreedb.edit cmp mode) (create maxKeys pageSize) edits =
      some (final, replies)) :
    replies = (replay Edit.apply (fun _ => none) edits).2 ∧
      ∃ height, Holds cmp maxKeys (replay Edit.apply (fun _ => none) edits).1 final height :=
  (serve_holds hsix hsize hsized hserve).symm

/-- After every run, the next edit ends nowhere just when it is to put a key in and the tree is
stuck, where it follows a child that is not there, or the commit that it begins with fails. -/
theorem edit_stops_iff {pageSize : Nat} {edits : List Edit} {final : Btreedb} {replies : List Reply}
    (hsized : ∀ edit ∈ edits, edit.Sized)
    (hserve : serve (Btreedb.edit cmp mode) (create maxKeys pageSize) edits =
      some (final, replies)) {edit : Edit} (hedit : edit.Sized) :
    final.edit cmp mode edit = none ↔
      edit.Adds (replay Edit.apply (fun _ => none) edits).1 ∧
        (Stuck mode.isDelaySplit final ∨
          final.store.sfh.numItems = mode.optimizeNum ∧ final.commit = none) := by
  obtain ⟨⟨height, hholds⟩, -⟩ := serve_holds hsix hsize hsized hserve
  rw [← tune_eq_none]
  rcases hholds.edit_cases hsix hsize hedit with
    ⟨hadds, hstops, hnone⟩ | ⟨hfree, next, height', hresult, -⟩
  · exact iff_of_true hnone ⟨hadds, hstops⟩
  · refine iff_of_false (fun hnone => ?_) hfree
    rw [hresult] at hnone
    cases hnone

end Runs

/-- Seven records in three nodes, of which five are deleted: what is left is in a single leaf below
a root without records. Four more records fill the leaf. -/
def stuckEdits : List Edit :=
  [.insert [0] [1], .insert [1] [], .insert [2] [], .insert [3] [], .insert [4] [], .insert [5] [],
    .insert [6] [], .find [3], .del [1], .del [2], .del [5], .del [6], .del [3], .update [0] [2],
    .find [0], .insert [1] [], .insert [2] [], .insert [3] [], .insert [5] []]

instance (delaySplit : Bool) (db : Btreedb) : Decidable (Stuck delaySplit db) :=
  inferInstanceAs (Decidable (_ ∧ _ ∧ _ ∧ _))

private theorem serve_stuckEdits : ∃ final replies,
    serve (Btreedb.edit compare .create) (create 6 1024) stuckEdits = some (final, replies) ∧
      Stuck true final := by
  have hstuck : (serve (Btreedb.edit compare .create) (create 6 1024) stuckEdits).any
      (fun out => decide (Stuck true out.1)) = true := by
    decide +kernel
  cases hserve : serve (Btreedb.edit compare .create) (create 6 1024) stuckEdits with
  | none =>
    rw [hserve] at hstuck
    cases hstuck
  | some out =>
    rw [hserve] at hstuck
    exact ⟨out.1, out.2, rfl, of_decide_eq_true hstuck⟩

private theorem sized_stuckEdits : ∀ edit ∈ stuckEdits, edit.Sized := by
  decide

/-- A run that uses all four calls. -/
theorem edits_refine_stuck : ∃ final replies,
    serve (Btreedb.edit compare .create) (create 6 1024) stuckEdits = some (final, replies) ∧
      replies = (replay Edit.apply (fun _ => none) stuckEdits).2 ∧
        ∃ height, Holds compare 6 (replay Edit.apply (fun _ => none) stuckEdits).1 final height := by
  obtain ⟨final, replies, hserve, -⟩ := serve_stuckEdits
  exact ⟨final, replies, hserve,
    edits_refine (le_refl 6) (by decide) sized_stuckEdits hserve⟩

/-- The tree is stuck after it: one more insertion ends nowhere. -/
theorem edit_stops_stuck : ∃ final replies,
    serve (Btreedb.edit compare .create) (create 6 1024) stuckEdits = some (final, replies) ∧
      final.edit compare .create (.insert [7] []) = none := by
  obtain ⟨final, replies, hserve, hstuck⟩ := serve_stuckEdits
  have hempty : (Edit.insert [7] []).Sized := by
    decide
  exact ⟨final, replies, hserve, (edit_stops_iff (le_refl 6) (by decide) sized_stuckEdits hserve
    hempty).mpr ⟨trivial, .inl hstuck⟩⟩

end Btreedb

end Libsax.Btree
