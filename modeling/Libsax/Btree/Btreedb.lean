import Libsax.Lib.Run
import Libsax.Btree.Commit
import Mathlib.Data.List.Dedup

/-! The database while its tree is in memory as a whole: insertions, with the commit that one of
them begins with, and node writes in between. -/
namespace Libsax.Btree

open Libsax.Lib
open Libsax.Db (Key Value)

namespace Mode

/-- As the constructor sets it, for a file name that does not end with `#`. -/
def create : Mode := ⟨8192 * 2, true⟩

end Mode

namespace Btreedb

/-- `open`, where there is no file yet. -/
def create (maxKeys pageSize : Nat) : Btreedb :=
  let sfh := { CbFileHeader.create with maxKeys := maxKeys, pageSize := pageSize }
  let (store, root) := allocateNode ⟨sfh, fun _ => 0, 0⟩
  ⟨store, { root with isLeaf := true, isLoaded := true, fpos := sfh.rootPos }⟩

/-- `insert` behind `optimize_`. No way down is longer than there are pages. -/
def insertKey (cmp : Key → Key → Ordering) (delaySplit : Bool) (db : Btreedb) (key : Key)
    (value : Value) : Option (Btreedb × Bool) := do
  let (store, root) ← growRoot db.store db.root
  let (store, root, inserted) ←
    insertInto cmp delaySplit (store.sfh.nPages + 1) store root (key, cell value)
  some (⟨store, root⟩, inserted)

def insert (cmp : Key → Key → Ordering) (mode : Mode) (db : Btreedb) (key : Key) (value : Value) :
    Option (Btreedb × Bool) := do
  (← db.tune mode).insertKey cmp mode.isDelaySplit key value

inductive Action where
  | insert (key : Key) (value : Value)
  /-- a write of one node, as `commit` makes them -/
  | write (path : List Nat)

def step (cmp : Key → Key → Ordering) (mode : Mode) (db : Btreedb) : Action → Option Btreedb
  | .insert key value => (db.insert cmp mode key value).map Prod.fst
  | .write path => (writeAt path db.store db.root).map fun out => ⟨out.1, out.2⟩

def pairs (actions : List Action) : List (Key × Value) :=
  actions.filterMap fun
    | .insert key value => some (key, value)
    | .write _ => none

/-- The tree is a B-tree of some height, with the first value that came with each key. -/
structure Valid (cmp : Key → Key → Ordering) (maxKeys : Nat) (given : List (Key × Value))
    (db : Btreedb) (height : Nat) : Prop where
  sizes : db.store.sfh.maxKeys = maxKeys
  pages : height < db.store.sfh.nPages
  shape : Shape (View.memory maxKeys) height (min 1 height) db.root
  ascending : Ascending cmp (inorder (View.memory maxKeys) height db.root)
  content : ∀ key stored, (key, stored) ∈ inorder (View.memory maxKeys) height db.root ↔
    ∃ value, stored = cell value ∧ given.find? (fun pair => pair.1 = key) = some (key, value)
  numItems : db.store.sfh.numItems = (given.map Prod.fst).dedup.length
  count : (inorder (View.memory maxKeys) height db.root).length = db.store.sfh.numItems

end Btreedb

variable {cmp : Key → Key → Ordering} {delaySplit : Bool} {mode : Mode} {maxKeys height : Nat}

namespace Btreedb

variable {db next : Btreedb} {given : List (Key × Value)} {key : Key} {value : Value}

private theorem find_append_eq_some {other : Key} {stored : Value} :
    (given ++ [(key, value)]).find? (fun pair => pair.1 = other) = some (other, stored) ↔
      given.find? (fun pair => pair.1 = other) = some (other, stored) ∨
        key ∉ given.map Prod.fst ∧ other = key ∧ stored = value := by
  have hnone : given.find? (fun pair => pair.1 = other) = none ↔ other ∉ given.map Prod.fst := by
    rw [List.find?_eq_none, List.mem_map]
    simp only [decide_eq_true_eq, not_exists, not_and]
  rw [List.find?_append, Option.or_eq_some_iff, hnone]
  refine or_congr_right ?_
  by_cases hsame : key = other
  · subst hsame
    simp [eq_comm]
  · simp [hsame, Ne.symm hsame]

theorem length_dedup_append (keys : List Key) (key : Key) :
    (keys ++ [key]).dedup.length = if key ∈ keys then keys.dedup.length
      else keys.dedup.length + 1 := by
  rw [(List.perm_append_singleton key keys).dedup.length_eq]
  split_ifs with hkey
  · rw [List.dedup_cons_of_mem hkey]
  · rw [List.dedup_cons_of_notMem hkey, List.length_cons]

section Valid

variable (hvalid : Valid cmp maxKeys given db height)
include hvalid

theorem Valid.mem_keys_iff : key ∈ given.map Prod.fst ↔
    ∃ other ∈ inorder (View.memory maxKeys) height db.root, other.1 = key := by
  constructor
  · intro hkey
    obtain ⟨pair, hpair, rfl⟩ := List.mem_map.mp hkey
    cases hfind : given.find? (fun other => other.1 = pair.1) with
    | none => exact absurd (decide_eq_true rfl) (List.find?_eq_none.mp hfind pair hpair)
    | some first =>
      have hfirst := List.find?_some hfind
      have hsame : first.1 = pair.1 := of_decide_eq_true hfirst
      exact ⟨(pair.1, cell first.2), (hvalid.content _ _).mpr
        ⟨first.2, rfl, by rw [hfind, ← hsame]⟩, rfl⟩
  · rintro ⟨⟨key, stored⟩, hother, rfl⟩
    obtain ⟨value, -, hfind⟩ := (hvalid.content _ _).mp hother
    exact List.mem_map.mpr ⟨(key, value), List.mem_of_find?_eq_some hfind, rfl⟩

theorem Valid.answer [Std.TransCmp cmp] {height' : Nat} {inserted : Bool}
    (hsizes : next.store.sfh.maxKeys = maxKeys) (hpages : height' < next.store.sfh.nPages)
    (hshape : Shape (View.memory maxKeys) height' (min 1 height') next.root)
    (hanswer : Answer cmp (key, cell value) (inorder (View.memory maxKeys) height db.root)
      (inorder (View.memory maxKeys) height' next.root) db.store.sfh.numItems
        next.store.sfh.numItems inserted) :
    inserted = decide (key ∉ given.map Prod.fst) ∧
      Valid cmp maxKeys (given ++ [(key, value)]) next height' := by
  cases hanswer with
  | inserted hinserted hcount =>
    have hnew : key ∉ given.map Prod.fst := by
      intro hkey
      obtain ⟨other, hother, hsame⟩ := hvalid.mem_keys_iff.mp hkey
      exact hinserted.absent hother hsame
    refine ⟨(decide_eq_true hnew).symm, hsizes, hpages, hshape,
      hinserted.ascending hvalid.ascending, ?_, ?_,
      by rw [hinserted.length, hvalid.count, hcount]⟩
    · intro other stored
      rw [hinserted.perm.mem_iff, List.mem_cons, hvalid.content, Prod.mk.injEq]
      simp only [find_append_eq_some]
      constructor
      · rintro (⟨rfl, rfl⟩ | ⟨first, hstored, hfind⟩)
        · exact ⟨value, rfl, .inr ⟨hnew, rfl, rfl⟩⟩
        · exact ⟨first, hstored, .inl hfind⟩
      · rintro ⟨first, hstored, hfind | ⟨-, rfl, rfl⟩⟩
        · exact .inr ⟨first, hstored, hfind⟩
        · exact .inl ⟨rfl, hstored⟩
    · rw [hcount, hvalid.numItems, List.map_append, List.map_singleton, length_dedup_append,
        if_neg hnew]
  | present hsame hpresent hcount =>
    have hold : key ∈ given.map Prod.fst := hvalid.mem_keys_iff.mpr hpresent
    refine ⟨(decide_eq_false (not_not_intro hold)).symm, hsizes, hpages, hshape,
      by rw [hsame]; exact hvalid.ascending, ?_, ?_, by rw [hsame, hvalid.count, hcount]⟩
    · intro other stored
      rw [hsame, hvalid.content]
      simp only [find_append_eq_some, hold, not_true_eq_false, false_and, or_false]
    · rw [hcount, hvalid.numItems, List.map_append, List.map_singleton, length_dedup_append,
        if_pos hold]

theorem Valid.insertKey [Std.TransCmp cmp] [Std.LawfulEqCmp cmp] (hmax : 6 ≤ maxKeys)
    (delaySplit : Bool) (key : Key) (value : Value) :
    (∃ next height', db.insertKey cmp delaySplit key value =
        some (next, decide (key ∉ given.map Prod.fst)) ∧
      Valid cmp maxKeys (given ++ [(key, value)]) next height' ∧
      next.store.sfh.pageSize = db.store.sfh.pageSize ∧
      (db.root.objCount < maxKeys → height' = height)) ∨
    db.insertKey cmp delaySplit key value = none ∧
      ¬ Narrow (View.memory maxKeys) height db.root := by
  have hfits := View.memory_fits hvalid.sizes
  have hloaded : db.root.isLoaded = true := hvalid.shape.loaded
  obtain ⟨store', root', height', hgrow, hgrown⟩ := growRoot_grown hfits hmax hloaded trivial
    hvalid.shape
  have hkeys : Ascending cmp (inorder (View.memory maxKeys) height' root') := by
    rw [hgrown.same]
    exact hvalid.ascending
  have hpages := hvalid.pages
  have hmore := hgrown.pages
  have hspare : height' ≠ 0 → Spare (View.memory maxKeys) delaySplit root' := by
    intro hheight
    have hleast : min 1 height' ≤ root'.objCount := hgrown.shape.least_le
    exact .inl (by omega)
  unfold Btreedb.insertKey
  rw [hgrow]
  simp only [Option.bind_eq_bind, Option.bind_some]
  rcases insertInto_inserts (hfits.leads hgrown.leads) hmax hgrown.loaded hgrown.shape hspare
    hgrown.room hkeys (show height' < store'.sfh.nPages + 1 by omega) with
    ⟨store'', root'', inserted, hresult, hkept, hanswer⟩ | ⟨hnone, hwide⟩
  · rw [hresult]
    rw [hgrown.same, hgrown.count] at hanswer
    have hleads := hgrown.leads.trans hkept.leads
    obtain ⟨rfl, hvalid'⟩ := @Valid.answer _ _ _ _ ⟨store'', root''⟩ _ _ _ hvalid _ _ _
      (hleads.maxKeys.trans hvalid.sizes)
      (Nat.lt_of_lt_of_le (by omega) hkept.leads.nPages) hkept.shape hanswer
    exact .inl ⟨⟨store'', root''⟩, height', rfl, hvalid', congrArg (·.pageSize) hleads.sfh,
      hgrown.free⟩
  · rw [hnone]
    exact .inr ⟨rfl, fun hnarrow => hwide (hgrown.narrow hnarrow)⟩

theorem Valid.rewritten {store : Store} {root : BtreeNode}
    (hrewritten : Rewritten maxKeys height (min 1 height) db.store db.root store root) :
    Valid cmp maxKeys given ⟨store, root⟩ height := by
  have hcounts := hrewritten.counts
  refine ⟨hcounts.maxKeys.trans hvalid.sizes,
    Nat.lt_of_lt_of_eq hvalid.pages hcounts.nPages.symm, hrewritten.shape, ?_, ?_,
    hcounts.numItems.trans hvalid.numItems, ?_⟩
  · rw [hrewritten.same]
    exact hvalid.ascending
  · rw [hrewritten.same]
    exact hvalid.content
  · rw [hrewritten.same]
    exact hvalid.count.trans hcounts.numItems.symm

theorem Valid.whole : ∀ item ∈ inorder (View.memory maxKeys) height db.root, Whole item := by
  rintro ⟨key, stored⟩ hitem
  obtain ⟨value, rfl, -⟩ := (hvalid.content key stored).mp hitem
  exact whole_cell key value

/-- What an insertion asks of the tree: not too many records in a node, and room on the pages
when it begins with a commit. -/
def Ready (mode : Mode) (maxKeys height : Nat) (db : Btreedb) : Prop :=
  Narrow (View.memory maxKeys) height db.root ∧
    (db.store.sfh.numItems = mode.optimizeNum → db.Fitting)

theorem Valid.insert [Std.TransCmp cmp] [Std.LawfulEqCmp cmp] (hmax : 6 ≤ maxKeys)
    (mode : Mode) (key : Key) (value : Value) :
    (∃ next height', db.insert cmp mode key value =
        some (next, decide (key ∉ given.map Prod.fst)) ∧
      Valid cmp maxKeys (given ++ [(key, value)]) next height' ∧
      next.store.sfh.pageSize = db.store.sfh.pageSize ∧
      (db.root.objCount < maxKeys → height' = height)) ∨
    db.insert cmp mode key value = none ∧ ¬ Ready mode maxKeys height db := by
  unfold Btreedb.insert
  cases htune : db.tune mode with
  | none =>
    refine .inr ⟨rfl, fun hready => ?_⟩
    obtain ⟨next, hnext⟩ := tune_goes mode hvalid.shape hvalid.whole hready.2
    rw [htune] at hnext
    cases hnext
  | some tuned =>
    have hrewritten := tune_rewritten htune hvalid.shape
    have hcount : tuned.root.objCount = db.root.objCount :=
      congrArg List.length (tune_root htune).items
    rw [Option.bind_eq_bind, Option.bind_some]
    rcases (hvalid.rewritten hrewritten).insertKey hmax mode.isDelaySplit key value with
      ⟨next, height', hresult, hvalid', hpage, hfree⟩ | ⟨hnone, hwide⟩
    · exact .inl ⟨next, height', hresult, hvalid', hpage.trans hrewritten.counts.pageSize,
        fun hroom => hfree (hcount ▸ hroom)⟩
    · exact .inr ⟨hnone, fun hready => hwide (hrewritten.narrow hready.1)⟩

theorem Valid.write {path : List Nat} {store : Store} {root : BtreeNode}
    (hwrite : writeAt path db.store db.root = some (store, root)) :
    Valid cmp maxKeys given ⟨store, root⟩ height :=
  hvalid.rewritten (writeAt_rewritten hwrite hvalid.shape)

end Valid

theorem create_valid (cmp : Key → Key → Ordering) (maxKeys pageSize : Nat) :
    Valid cmp maxKeys [] (create maxKeys pageSize) 0 := by
  refine ⟨rfl, Nat.zero_lt_one, ⟨⟨rfl, rfl, rfl⟩, Nat.zero_le _, Nat.zero_le _⟩, ascending_nil,
    fun key stored => ⟨fun hmem => absurd hmem List.not_mem_nil, ?_⟩, rfl, rfl⟩
  rintro ⟨value, -, hfind⟩
  cases hfind

section Runs

variable [Std.TransCmp cmp] [Std.LawfulEqCmp cmp]

theorem Valid.step (hmax : 6 ≤ maxKeys) {action : Action} (hvalid : Valid cmp maxKeys given db height)
    (hstep : step cmp mode db action = some next) :
    ∃ height', Valid cmp maxKeys (given ++ pairs [action]) next height' := by
  cases action with
  | insert key value =>
    obtain ⟨⟨other, inserted⟩, hinsert, rfl⟩ := Option.map_eq_some_iff.mp hstep
    rcases hvalid.insert hmax mode key value with
      ⟨next, height', hresult, hvalid', -⟩ | ⟨hnone, -⟩
    · rw [hresult] at hinsert
      cases hinsert
      exact ⟨height', hvalid'⟩
    · rw [hnone] at hinsert
      cases hinsert
  | write path =>
    obtain ⟨⟨store, root⟩, hwrite, rfl⟩ := Option.map_eq_some_iff.mp hstep
    have hnone : pairs [.write path] = [] := rfl
    rw [hnone, List.append_nil]
    exact ⟨height, hvalid.write hwrite⟩

theorem Valid.run (hmax : 6 ≤ maxKeys) {actions : List Action}
    (hvalid : Valid cmp maxKeys given db height)
    (hrun : run (Btreedb.step cmp mode) db actions = some next) :
    ∃ height', Valid cmp maxKeys (given ++ pairs actions) next height' := by
  induction actions generalizing db given height with
  | nil =>
    cases hrun
    have hnone : pairs [] = [] := rfl
    rw [hnone, List.append_nil]
    exact ⟨height, hvalid⟩
  | cons action rest ih =>
    obtain ⟨other, hstep, hrest⟩ := run_cons_eq_some.mp hrun
    obtain ⟨height', hvalid'⟩ := hvalid.step hmax hstep
    have hsplit : pairs (action :: rest) = pairs [action] ++ pairs rest :=
      List.filterMap_append (l := [action])
    rw [hsplit, ← List.append_assoc]
    exact ih hvalid' hrest

/-- After every run of insertions, with writes in between, the tree is a B-tree that holds the
first value given with each key. The next insertion answers whether its key is new, where no
node has more records than the indexes of the search can address and, at the number of records
at which it begins with a commit, every node to be written has room on its page. -/
theorem insert_runs (hmax : 6 ≤ maxKeys) {pageSize : Nat} {actions : List Action}
    {final : Btreedb}
    (hrun : run (Btreedb.step cmp mode) (create maxKeys pageSize) actions = some final) :
    ∃ height, Valid cmp maxKeys (pairs actions) final height ∧
      (Ready mode maxKeys height final → ∀ key value, ∃ next height',
        final.insert cmp mode key value =
            some (next, decide (key ∉ (pairs actions).map Prod.fst)) ∧
          Valid cmp maxKeys (pairs actions ++ [(key, value)]) next height') := by
  obtain ⟨height, hvalid⟩ := (create_valid cmp maxKeys pageSize).run hmax hrun
  refine ⟨height, hvalid, fun hready key value => ?_⟩
  rcases hvalid.insert hmax mode key value with
    ⟨next, height', hresult, hvalid', -⟩ | ⟨-, hnot⟩
  · exact ⟨next, height', hresult, hvalid'⟩
  · exact absurd hready hnot

end Runs

/-- Insertions with a commit at the fourth, of records that a node does not hold, a write and a key
that is there. -/
def splitInserts : List Action :=
  [.insert [3] [2], .insert [1] [], .insert [5] [7, 7], .insert [2] [2], .insert [6] [],
    .insert [4] [2], .write [], .insert [0] [2], .insert [5] [1]]

theorem exists_run_split : ∃ final,
    run (step compare ⟨3, true⟩) (create 6 1024) splitInserts = some final ∧
      final.root.isLeaf = false := by
  have hrun : ((run (step compare ⟨3, true⟩) (create 6 1024) splitInserts).map
      fun final => final.root.isLeaf) = some false := by
    decide +kernel
  exact Option.map_eq_some_iff.mp hrun

/-- They leave a tree of two levels, which takes every other pair. -/
theorem insert_runs_split : ∃ final height,
    run (step compare ⟨3, true⟩) (create 6 1024) splitInserts = some final ∧
      final.root.isLeaf = false ∧ Valid compare 6 (pairs splitInserts) final height ∧
      ∀ key value, ∃ next height',
        final.insert compare ⟨3, true⟩ key value =
            some (next, decide (key ∉ (pairs splitInserts).map Prod.fst)) ∧
          Valid compare 6 (pairs splitInserts ++ [(key, value)]) next height' := by
  obtain ⟨final, hrun, hinner⟩ := exists_run_split
  obtain ⟨height, hvalid, hinsert⟩ := insert_runs (le_refl 6) hrun
  have hnarrow := hvalid.shape.narrow (show 6 ≤ 2 ^ 30 by decide)
  have hcount : final.store.sfh.numItems = 7 := hvalid.numItems
  refine ⟨final, height, hrun, hinner, hvalid, hinsert ⟨hnarrow, fun hcommit => ?_⟩⟩
  rw [hcount] at hcommit
  cases hcommit

private theorem bisect_overflows [Std.OrientedCmp cmp] {items : List Item}
    (hbelow : Below cmp key items)
    (hmany : 2 ^ 30 < items.length) (fuel : Nat) {low : Nat} (hlow : low < items.length) :
    bisect cmp key items fuel low (items.length - 1) = none := by
  induction fuel generalizing low with
  | zero => rfl
  | succ fuel ih =>
    unfold bisect
    rw [if_pos (by omega)]
    by_cases hrange : (low : Int) + (items.length - 1) < 2 ^ 31
    · obtain ⟨mid, hmid⟩ : ∃ mid : Nat, ((low : Int) + (items.length - 1)) / 2 = mid :=
        ⟨(low + (items.length - 1)) / 2, by omega⟩
      have hlt : mid + 1 < items.length := by omega
      have hin : mid < items.length := Nat.lt_of_succ_lt hlt
      have hcmp : cmp key items[mid].1 = .gt :=
        Std.OrientedCmp.gt_of_lt (hbelow _ (List.getElem_mem _))
      rw [if_pos hrange]
      simp only [hmid, Int.toNat_natCast, List.getElem?_eq_getElem hin,
        Option.bind_eq_bind, Option.bind_some, hcmp]
      exact ih hlt
    · rw [if_neg hrange]

/-- A number in so many bytes, the most significant one first. -/
def numberKey : Nat → Nat → Key
  | 0, _ => []
  | length + 1, number =>
    UInt8.ofNat (number / 256 ^ length) :: numberKey length (number % 256 ^ length)

private theorem compare_numberKey {length i j : Nat} (hlt : i < j) (hj : j < 256 ^ length) :
    compare (numberKey length i) (numberKey length j) = .lt := by
  induction length generalizing i j with
  | zero =>
    rw [Nat.pow_zero] at hj
    omega
  | succ length ih =>
    have hpos : 0 < 256 ^ length := Nat.pow_pos (by decide)
    have hfirst : j / 256 ^ length < 256 := by
      rw [Nat.div_lt_iff_lt_mul hpos, ← Nat.pow_succ']
      exact hj
    have hle : i / 256 ^ length ≤ j / 256 ^ length := Nat.div_le_div_right (Nat.le_of_lt hlt)
    have hcons : compare (numberKey (length + 1) i) (numberKey (length + 1) j) =
        (compare (UInt8.ofNat (i / 256 ^ length)) (UInt8.ofNat (j / 256 ^ length))).then
          (compare (numberKey length (i % 256 ^ length)) (numberKey length (j % 256 ^ length))) :=
      List.compareLex_cons_cons
    rw [hcons]
    rcases Nat.lt_or_eq_of_le hle with hless | hsame
    · have hbyte : UInt8.ofNat (i / 256 ^ length) < UInt8.ofNat (j / 256 ^ length) := by
        rw [UInt8.lt_iff_toNat_lt, UInt8.toNat_ofNat', UInt8.toNat_ofNat',
          Nat.mod_eq_of_lt (Nat.lt_trans hless hfirst), Nat.mod_eq_of_lt hfirst]
        exact hless
      rw [show compare (UInt8.ofNat (i / 256 ^ length)) (UInt8.ofNat (j / 256 ^ length)) = .lt from
        if_pos hbyte]
      rfl
    · have hrest : i % 256 ^ length < j % 256 ^ length := by
        have hi := Nat.div_add_mod i (256 ^ length)
        have hj := Nat.div_add_mod j (256 ^ length)
        rw [hsame] at hi
        omega
      rw [hsame, Std.ReflOrd.compare_self, ih hrest (Nat.mod_lt _ hpos)]
      rfl

/-- Insertions of ever greater keys, of four bytes each. -/
def ascendingInserts (n : Nat) : List Action :=
  (List.range n).map fun i => .insert (numberKey 4 i) []

private theorem keys_ascendingInserts (n : Nat) :
    (pairs (ascendingInserts n)).map Prod.fst = (List.range n).map (numberKey 4) := by
  unfold pairs ascendingInserts
  rw [List.filterMap_map, List.map_filterMap]
  show (List.range n).filterMap (fun i => some (numberKey 4 i)) = _
  rw [List.filterMap_eq_map']

theorem numberKey_notMem {n : Nat} (hn : n < 2 ^ 32) :
    numberKey 4 n ∉ (pairs (ascendingInserts n)).map Prod.fst := by
  intro hmem
  rw [keys_ascendingInserts] at hmem
  obtain ⟨i, hi, hsame⟩ := List.mem_map.mp hmem
  have hlt := compare_numberKey (List.mem_range.mp hi) (show n < 256 ^ 4 from hn)
  rw [hsame, Std.ReflOrd.compare_self] at hlt
  cases hlt

private theorem ascendingInserts_succ (n : Nat) :
    ascendingInserts (n + 1) = ascendingInserts n ++ [.insert (numberKey 4 n) []] := by
  unfold ascendingInserts
  rw [List.range_succ, List.map_append, List.map_singleton]

@[simp] private theorem pairs_append (left right : List Action) : pairs
    (left ++ right) = pairs left ++ pairs right :=
  List.filterMap_append

private theorem dedup_ascendingInserts {n : Nat} (hn : n ≤ 2 ^ 32) :
    ((pairs (ascendingInserts n)).map Prod.fst).dedup.length = n := by
  induction n with
  | zero => rfl
  | succ n ih =>
    rw [ascendingInserts_succ, pairs_append, List.map_append]
    show ((pairs (ascendingInserts n)).map Prod.fst ++ [numberKey 4 n]).dedup.length = n + 1
    rw [length_dedup_append, if_neg (numberKey_notMem hn), ih (Nat.le_of_succ_le hn)]

private theorem fitting_leaf (hvalid : Valid cmp maxKeys given db 0)
    (hpage : 33 ≤ db.store.sfh.pageSize) :
    db.Fitting := by
  have hbottom : Bottom db.root := hvalid.shape.1
  have hleaf : db.root.isInner = false := by
    unfold BtreeNode.isInner
    rw [hbottom.leaf, Bool.not_true, Bool.and_false]
  have hsize : db.root.fixedSize = 33 := by
    unfold BtreeNode.fixedSize
    rw [BtreeNode.pageHead_length, BtreeNode.positions_length hvalid.shape.reaches, hleaf]
    rfl
  rintro ⟨path, child⟩ hmem
  have hfollow := follow_of_mem_dirtyNodes hmem
  cases path with
  | nil =>
    obtain rfl := Option.some.inj hfollow
    exact Nat.le_trans (Nat.le_of_eq hsize) hpage
  | cons i path =>
    rw [BtreeNode.follow, hbottom.childless] at hfollow
    cases hfollow

private theorem run_ascendingInserts {n : Nat} (hn : n ≤ 2 ^ 30 + 1) : ∃ final,
    run (step compare .create) (create (2 ^ 31) 4096) (ascendingInserts n) = some final ∧
      Valid compare (2 ^ 31) (pairs (ascendingInserts n)) final 0 ∧
      final.store.sfh.pageSize = 4096 := by
  induction n with
  | zero => exact ⟨_, rfl, create_valid compare (2 ^ 31) 4096, rfl⟩
  | succ n ih =>
    obtain ⟨db, hrun, hvalid, hpage⟩ := ih (Nat.le_of_succ_le hn)
    have hcount : db.root.objCount = n :=
      hvalid.count.trans (hvalid.numItems.trans (dedup_ascendingInserts (by omega)))
    rcases hvalid.insert (by decide) .create (numberKey 4 n) [] with
      ⟨next, height', hinsert, hvalid', hpage', hsame⟩ | ⟨-, hnot⟩
    · obtain rfl := hsame (by omega)
      refine ⟨next, ?_, ?_, hpage'.trans hpage⟩
      · rw [ascendingInserts_succ, run_append, hrun, Option.bind_some, run_cons, step, hinsert]
        rfl
      · rw [ascendingInserts_succ, pairs_append]
        exact hvalid'
    · refine absurd ⟨?_, fun _ => fitting_leaf hvalid ?_⟩ hnot
      · exact show db.root.objCount ≤ 2 ^ 30 by omega
      · rw [hpage]
        decide

theorem exists_run_overflow : ∃ final,
    run (step compare .create) (create (2 ^ 31) 4096) (ascendingInserts (2 ^ 30 + 1)) =
        some final ∧
      final.store.sfh.numItems = 2 ^ 30 + 1 ∧
      final.root.objCount < final.store.sfh.maxKeys ∧
      spot compare (numberKey 4 (2 ^ 30 + 1)) final.root.items = none := by
  obtain ⟨final, hrun, hvalid, -⟩ := run_ascendingInserts (le_refl (2 ^ 30 + 1))
  have hnumItems : final.store.sfh.numItems = 2 ^ 30 + 1 :=
    hvalid.numItems.trans (dedup_ascendingInserts (by decide))
  have hcount : final.root.items.length = 2 ^ 30 + 1 := hvalid.count.trans hnumItems
  have hbelow : Below compare (numberKey 4 (2 ^ 30 + 1)) final.root.items := by
    intro item hitem
    have hkey := hvalid.mem_keys_iff.mpr ⟨item, hitem, rfl⟩
    rw [keys_ascendingInserts] at hkey
    obtain ⟨i, hi, hsame⟩ := List.mem_map.mp hkey
    rw [← hsame]
    exact compare_numberKey (List.mem_range.mp hi) (by decide)
  refine ⟨final, hrun, hnumItems, ?_, ?_⟩
  · rw [hvalid.sizes, BtreeNode.objCount, hcount]
    decide
  · exact @bisect_overflows compare (numberKey 4 (2 ^ 30 + 1)) _ _ hbelow (by omega)
      (final.root.items.length + 1) 0 (by omega)

def sevenInserts : List Action := (List.range 7).map fun i => .insert [UInt8.ofNat i] [2]

private theorem commit_overruns : ∃ final,
    run (step compare ⟨7, true⟩) (create 6 40) sevenInserts = some final ∧
      final.insert compare ⟨7, true⟩ [7] [] = none := by
  have hrun : ((run (step compare ⟨7, true⟩) (create 6 40) sevenInserts).map
      fun final => (final.insert compare ⟨7, true⟩ [7] []).isNone) = some true := by
    decide +kernel
  obtain ⟨final, hrun, hnone⟩ := Option.map_eq_some_iff.mp hrun
  exact ⟨final, hrun, Option.isNone_iff_eq_none.mp hnone⟩

theorem insert_overflows : (∃ final,
    run (step compare .create) (create (2 ^ 31) 4096) (ascendingInserts (2 ^ 30 + 1)) =
        some final ∧
      final.insert compare .create (numberKey 4 (2 ^ 30 + 1)) [] = none) ∧
    ∃ final, run (step compare ⟨7, true⟩) (create 6 40) sevenInserts = some final ∧
      final.insert compare ⟨7, true⟩ [7] [] = none := by
  obtain ⟨final, hrun, hnumItems, hroom, hspot⟩ := exists_run_overflow
  refine ⟨⟨final, hrun, ?_⟩, commit_overruns⟩
  have htune : final.tune .create = some final := by
    unfold tune
    rw [if_neg (by rw [hnumItems]; decide)]
  have hgrow : growRoot final.store final.root = some (final.store, final.root) :=
    if_neg (Nat.not_le.mpr hroom)
  unfold Btreedb.insert insertKey insertInto
  rw [htune]
  simp only [Option.bind_eq_bind, Option.bind_some, hgrow, hspot, Option.bind_none]

end Btreedb

end Libsax.Btree
