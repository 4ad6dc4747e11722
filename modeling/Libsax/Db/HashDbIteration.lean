import Mathlib.Data.List.Flatten
import Libsax.Db.HashDbSeq

/-! Iteration meets every record once, as long as each block ends in a size of 0. -/
namespace Libsax.Db

open Libsax.Lib

variable {hashFun : Key → UInt32} {db : HashDb} {chains : Nat → List Block} {map : Map}

def recordsBefore (chains : Nat → List Block) (idx depth : Nat) : List (Key × Value) :=
  contents idx (fun i => recordsOf (chains i)) ++ recordsOf ((chains idx).take depth)

private theorem recordsBefore_zero (chains : Nat → List Block) (idx : Nat) :
    recordsBefore chains idx 0 = contents idx fun i => recordsOf (chains i) :=
  List.append_nil _

private theorem recordsBefore_succ {idx depth : Nat} {block : Block}
    (hblock : (chains idx)[depth]? = some block) :
    recordsBefore chains idx (depth + 1) = recordsBefore chains idx depth ++ block.records := by
  unfold recordsBefore
  have hlt := (List.getElem?_eq_some_iff.mp hblock).1
  rw [List.take_add_one, hblock, recordsOf_append, List.append_assoc]
  congr 2
  exact List.append_nil _

private theorem recordsBefore_end {idx depth : Nat} (hend : (chains idx).length ≤ depth) :
    recordsBefore chains idx depth = recordsBefore chains (idx + 1) 0 := by
  rw [recordsBefore_zero, contents_succ]
  unfold recordsBefore
  rw [List.take_of_length_le hend]

private theorem contents_split {size idx depth : Nat} {block : Block}
    {left right : List (Key × Value)}
    {entry : Key × Value} (hidx : idx < size) (hblock : (chains idx)[depth]? = some block)
    (hrecords : block.records = left ++ entry :: right) :
    ∃ back, (contents size fun i => recordsOf (chains i)) =
      (recordsBefore chains idx depth ++ left) ++ entry :: back := by
  obtain ⟨more, hmore⟩ : ∃ more, size = idx + 1 + more := ⟨size - (idx + 1), by omega⟩
  have hbucket : recordsOf (chains idx) = recordsOf ((chains idx).take depth) ++
      (block.records ++ recordsOf ((chains idx).drop (depth + 1))) := by
    conv_lhs => rw [(split_at hblock).1]
    rw [recordsOf_append, recordsOf_cons]
  have hall : (contents size fun i => recordsOf (chains i)) =
      contents (idx + 1) (fun i => recordsOf (chains i)) ++
        (List.range more).flatMap (fun i => recordsOf (chains (idx + 1 + i))) := by
    unfold contents
    rw [hmore, List.range_add, List.flatMap_append, List.flatMap_map]
  rw [hall, contents_succ, hbucket, hrecords]
  unfold recordsBefore
  refine ⟨right ++ recordsOf ((chains idx).drop (depth + 1)) ++
    (List.range more).flatMap (fun i => recordsOf (chains (idx + 1 + i))), ?_⟩
  simp only [List.append_assoc, List.cons_append]

/-- The database as it was, up to what is in memory. -/
structure Kept (hashFun : Key → UInt32) (chains : Nat → List Block) (map : Map)
    (db next : HashDb) : Prop where
  isOpen : next.isOpen = db.isOpen
  sfh : next.sfh = db.sfh
  attached : Attached hashFun next chains map

theorem Kept.trans {next last : HashDb} (hfirst : Kept hashFun chains map db next)
    (hsecond : Kept hashFun chains map next last) : Kept hashFun chains map db last :=
  ⟨hsecond.isOpen.trans hfirst.isOpen, hsecond.sfh.trans hfirst.sfh, hsecond.attached⟩

structure Here (db : HashDb) (chains : Nat → List Block) (idx depth : Nat) (bucket : BucketChain)
    (block : Block) : Prop where
  inMemory : (db.entry idx)[depth]? = some bucket
  meant : (chains idx)[depth]? = some block
  loaded : bucket.isLoaded = true

/-- The walk along a chain has come to a loaded block or to the end. -/
def Reached (db : HashDb) (chains : Nat → List Block) (idx depth : Nat) : Prop :=
  (∃ bucket block, Here db chains idx depth bucket block) ∨
    (db.entry idx).length ≤ depth ∧ (chains idx).length ≤ depth

theorem Here.shows {idx depth : Nat} {bucket : BucketChain} {block : Block}
    (hhere : Here db chains idx depth bucket block) (hdb : Attached hashFun db chains map)
    (hidx : idx < 2 ^ db.sfh.dpow) :
    Shows db.sfh.bucketSize db.file bucket ((db.entry idx).drop (depth + 1)) block
      ((chains idx).drop (depth + 1)) := by
  obtain ⟨other, hother, hshows⟩ := (hdb.holds idx hidx).getElem? hhere.inMemory
  rwa [Option.some.inj (hother.symm.trans hhere.meant)] at hshows

theorem Here.fits {idx depth : Nat} {bucket : BucketChain} {block : Block}
    (hhere : Here db chains idx depth bucket block) (hdb : Attached hashFun db chains map)
    (hidx : idx < 2 ^ db.sfh.dpow) : block.Fits db.sfh.bucketSize :=
  hdb.layout.fits idx hidx block (List.mem_of_getElem? hhere.meant)

theorem Attached.loadNext (hdb : Attached hashFun db chains map) {idx depth : Nat}
    {bucket : BucketChain} {block : Block} (hidx : idx < 2 ^ db.sfh.dpow)
    (hhere : Here db chains idx depth bucket block) :
    Kept hashFun chains map db (db.loadNext idx depth) ∧
      Reached (db.loadNext idx depth) chains idx (depth + 1) := by
  have hholds := hdb.holds idx hidx
  obtain ⟨hchain, hfront⟩ := split_at hhere.inMemory
  obtain ⟨hblocks, hbefore⟩ := split_at hhere.meant
  have hlength := hfront.trans hbefore.symm
  have hend : Holds db.sfh.bucketSize db.file (bucket :: (db.entry idx).drop (depth + 1))
      (block :: (chains idx).drop (depth + 1)) := by
    rw [hchain, hblocks] at hholds
    exact Holds.drop hlength hholds
  have hfits : ∀ other ∈ (chains idx).drop (depth + 1), other.Fits db.sfh.bucketSize :=
    fun other hother => hdb.layout.fits idx hidx other (List.mem_of_mem_drop hother)
  have hbehind : ∃ next loaded,
      BucketChain.loadNext db.sfh.bucketSize db.file ((db.entry idx).drop (depth + 1)) =
        (next, loaded) ∧
      Holds db.sfh.bucketSize db.file (bucket :: next) (block :: (chains idx).drop (depth + 1)) ∧
      ((∃ following later, next[0]? = some following ∧ following.isLoaded = true ∧
          ((chains idx).drop (depth + 1))[0]? = some later) ∨
        next = [] ∧ (chains idx).drop (depth + 1) = []) := by
    rcases loadNext_cases hfits hhere.loaded hend with
      ⟨hlast, hnext⟩ | ⟨later, others, following, rest, loaded, hmore, hload, hfollowing, hrest⟩
    · rw [hnext] at hend ⊢
      exact ⟨[], false, rfl, hend, Or.inr ⟨rfl, hlast⟩⟩
    · rw [hmore] at hend ⊢
      exact ⟨following :: rest, loaded, hload, hend.behind_loaded hrest,
        Or.inl ⟨following, later, rfl, hfollowing, rfl⟩⟩
  obtain ⟨next, loaded, hload, hnext, hat⟩ := hbehind
  have htake : (db.entry idx).take (depth + 1) = (db.entry idx).take depth ++ [bucket] := by
    rw [List.take_add_one, hhere.inMemory]
    rfl
  have hnew : Holds db.sfh.bucketSize db.file ((db.entry idx).take (depth + 1) ++ next)
      (chains idx) := by
    rw [htake, List.append_assoc]
    rw [hblocks] at hholds ⊢
    rw [hchain] at hholds
    exact hholds.append hlength (List.cons_ne_nil _ _) rfl hnext
  have hfrontLength : ((db.entry idx).take (depth + 1)).length = depth + 1 := by
    rw [htake, List.length_append, hfront]
    rfl
  unfold HashDb.loadNext
  simp only [hload]
  refine ⟨⟨rfl, rfl, hdb.memory _ _ fun i hi => ?_⟩, ?_⟩
  · by_cases heq : i = idx
    · subst heq
      rw [Function.update_self]
      exact hnew
    · rw [Function.update_of_ne heq]
      exact hdb.holds i hi
  · rcases hat with ⟨following, later, hfollowing, hloaded, hlater⟩ | ⟨hnil, hlast⟩
    · refine Or.inl ⟨following, later, ?_, ?_, hloaded⟩
      · simp only [Function.update_self]
        rw [List.getElem?_append_right (Nat.le_of_eq hfrontLength), hfrontLength, Nat.sub_self]
        exact hfollowing
      · rwa [List.getElem?_drop] at hlater
    · refine Or.inr ⟨?_, List.drop_eq_nil_iff.mp hlast⟩
      simp only [Function.update_self]
      rw [hnil, List.append_nil]
      exact Nat.le_of_eq hfrontLength

theorem Here.num_le {idx depth : Nat} {bucket : BucketChain} {block : Block}
    (hhere : Here db chains idx depth bucket block) (hdb : Attached hashFun db chains map)
    (hidx : idx < 2 ^ db.sfh.dpow) : bucket.num ≤ 0 ↔ block.records = [] := by
  rw [(hhere.shows hdb hidx).num hhere.loaded, ← List.length_eq_zero_iff]
  have hcount := (hhere.fits hdb hidx).countable
  unfold Block.num
  rw [Int32.le_iff_toInt_le, Int32.toInt_ofNat_of_lt hcount]
  change (block.records.length : Int) ≤ 0 ↔ _
  omega

theorem Here.num_eq {idx depth : Nat} {bucket : BucketChain} {block : Block}
    (hhere : Here db chains idx depth bucket block) (hdb : Attached hashFun db chains map)
    (hidx : idx < 2 ^ db.sfh.dpow) : bucket.num = 0 ↔ block.records = [] := by
  rw [(hhere.shows hdb hidx).num hhere.loaded, ← List.length_eq_zero_iff]
  have hcount := (hhere.fits hdb hidx).countable
  unfold Block.num
  rw [← Int32.toInt_inj, Int32.toInt_ofNat_of_lt hcount]
  change (block.records.length : Int) = 0 ↔ _
  omega

theorem Attached.skipEmpty {fuel : Nat} (hdb : Attached hashFun db chains map) {idx depth : Nat}
    (hidx : idx < 2 ^ db.sfh.dpow) (hreached : Reached db chains idx depth)
    (hdepth : depth ≤ (chains idx).length) (hfuel : (chains idx).length < fuel + depth) :
    ∃ next found, HashDb.skipEmpty fuel db idx depth = some (next, found) ∧
      Kept hashFun chains map db next ∧
      match found with
      | some other => recordsBefore chains idx other = recordsBefore chains idx depth ∧
          ∃ bucket block, Here next chains idx other bucket block ∧ block.records ≠ []
      | none => recordsBefore chains (idx + 1) 0 = recordsBefore chains idx depth := by
  induction fuel generalizing db depth with
  | zero => omega
  | succ fuel ih =>
    unfold HashDb.skipEmpty
    rcases hreached with ⟨bucket, block, hhere⟩ | ⟨hmemory, hend⟩
    · simp only [hhere.inMemory]
      split_ifs with hempty
      · obtain ⟨hkept, hmore⟩ := hdb.loadNext hidx hhere
        have hnone := (hhere.num_le hdb hidx).mp hempty
        have hlt := (List.getElem?_eq_some_iff.mp hhere.meant).1
        obtain ⟨next, found, hskip, hnext, hfound⟩ :=
          ih hkept.attached (by rw [hkept.sfh]; exact hidx) hmore hlt (by omega)
        have hsame : recordsBefore chains idx (depth + 1) = recordsBefore chains idx depth := by
          rw [recordsBefore_succ hhere.meant, hnone, List.append_nil]
        rw [hsame] at hfound
        exact ⟨next, found, hskip, hkept.trans hnext, hfound⟩
      · refine ⟨db, some depth, rfl, ⟨rfl, rfl, hdb⟩, rfl, bucket, block, hhere, fun hnone => ?_⟩
        exact hempty ((hhere.num_le hdb hidx).mpr hnone)
    · simp only [List.getElem?_eq_none hmemory]
      exact ⟨db, none, rfl, ⟨rfl, rfl, hdb⟩, (recordsBefore_end hend).symm⟩

theorem Attached.enterLoaded (hdb : Attached hashFun db chains map) {idx : Nat}
    (hidx : idx < 2 ^ db.sfh.dpow) :
    Kept hashFun chains map db (db.enterLoaded idx) ∧ Reached (db.enterLoaded idx) chains idx 0 := by
  obtain ⟨hholds, hnil⟩ := hdb.enter hidx
  have hloaded : ∃ activeNum entry, db.load (db.enter idx) = ({ db with activeNum }, entry) ∧
      Holds db.sfh.bucketSize db.file entry (chains idx) ∧
      ((∃ bucket rest block behind, entry = bucket :: rest ∧ chains idx = block :: behind ∧
        bucket.isLoaded = true) ∨ entry = [] ∧ chains idx = []) := by
    cases henter : db.enter idx with
    | nil =>
      rw [henter] at hholds
      exact ⟨db.activeNum, [], rfl, hholds, Or.inr ⟨rfl, hnil henter⟩⟩
    | cons bucket next =>
      rw [henter] at hholds
      obtain ⟨activeNum, loaded, rest, block, behind, hchain, hload, hthere, hnew⟩ :=
        load_holds (hdb.layout.fits idx hidx) hholds
      rw [hchain]
      exact ⟨activeNum, loaded :: rest, hload, hnew,
        Or.inl ⟨loaded, rest, block, behind, rfl, rfl, hthere⟩⟩
  obtain ⟨activeNum, entry, hload, hnew, hat⟩ := hloaded
  unfold HashDb.enterLoaded
  simp only [hload]
  refine ⟨⟨rfl, rfl, hdb.memory _ _ fun i hi => ?_⟩, ?_⟩
  · by_cases heq : i = idx
    · subst heq
      rw [Function.update_self]
      exact hnew
    · rw [Function.update_of_ne heq]
      exact hdb.holds i hi
  · rcases hat with ⟨bucket, rest, block, behind, rfl, hchain, hthere⟩ | ⟨rfl, hchain⟩
    · refine Or.inl ⟨bucket, block, ?_, by rw [hchain]; rfl, hthere⟩
      simp only [Function.update_self]
      rfl
    · refine Or.inr ⟨?_, Nat.le_of_eq (by rw [hchain]; rfl)⟩
      simp only [Function.update_self]
      exact Nat.le_refl 0

/-- A walk has come behind these records: to the first record of a block, or to the end. -/
def Came (hashFun : Key → UInt32) (chains : Nat → List Block) (map : Map) (db next : HashDb)
    (before : List (Key × Value)) (locn : Option Locn) : Prop :=
  Kept hashFun chains map db next ∧
    match locn with
    | some locn => locn.idx < 2 ^ db.sfh.dpow ∧ locn.p = 0 ∧
        recordsBefore chains locn.idx locn.depth = before ∧
        ∃ bucket block, Here next chains locn.idx locn.depth bucket block ∧ block.records ≠ []
    | none => (contents (2 ^ db.sfh.dpow) fun i => recordsOf (chains i)) = before

theorem Came.behind {next last : HashDb} {before : List (Key × Value)} {locn : Option Locn}
    (hkept : Kept hashFun chains map db next)
    (hcame : Came hashFun chains map next last before locn) :
    Came hashFun chains map db last before locn := by
  obtain ⟨hlast, hlocn⟩ := hcame
  rw [hkept.sfh] at hlocn
  exact ⟨hkept.trans hlast, hlocn⟩

theorem Attached.nextBucket {fuel : Nat} (hdb : Attached hashFun db chains map) {idx : Nat}
    (hidx : idx ≤ 2 ^ db.sfh.dpow) (hfuel : 2 ^ db.sfh.dpow < fuel + idx) :
    ∃ next locn, HashDb.nextBucket fuel db idx = some (next, locn) ∧
      Came hashFun chains map db next (recordsBefore chains idx 0) locn := by
  induction fuel generalizing db idx with
  | zero => omega
  | succ fuel ih =>
    unfold HashDb.nextBucket
    rw [hdb.directory]
    split_ifs with hend
    · refine ⟨db, none, rfl, ⟨rfl, rfl, hdb⟩, ?_⟩
      rw [recordsBefore_zero, Nat.le_antisymm hidx hend]
    · have hlt : idx < 2 ^ db.sfh.dpow := Nat.lt_of_not_le hend
      obtain ⟨hentered, hreached⟩ := hdb.enterLoaded hlt
      have hlength := hdb.layout.chain_length_le hlt
      obtain ⟨next, found, hskip, hkept, hfound⟩ := hentered.attached.skipEmpty
        (by rw [hentered.sfh]; exact hlt) hreached (Nat.zero_le _) (Nat.lt_succ_of_le hlength)
      have hempty : db.isEmptyBucket idx = some (next, found) := hskip
      simp only [hempty, Option.bind_eq_bind, Option.bind_some]
      have hnext := hentered.trans hkept
      cases found with
      | some depth =>
        obtain ⟨hbefore, hhere⟩ := hfound
        exact ⟨next, some ⟨idx, depth, 0⟩, rfl, hnext, hlt, rfl, hbefore, hhere⟩
      | none =>
        have hdirectory : next.directorySize = 2 ^ db.sfh.dpow := by
          rw [hnext.attached.directory, hnext.sfh]
        simp only [hdirectory]
        by_cases hlast : idx ≥ 2 ^ db.sfh.dpow - 1
        · have hsize : idx + 1 = 2 ^ db.sfh.dpow := by omega
          rw [if_pos hlast]
          refine ⟨next, none, rfl, hnext, ?_⟩
          rw [← hfound, recordsBefore_zero, hsize]
        · rw [if_neg hlast]
          have hmoreLt : idx + 1 ≤ 2 ^ next.sfh.dpow := by
            rw [hnext.sfh]
            exact hlt
          obtain ⟨last, locn, hmore, hcame⟩ := ih hnext.attached hmoreLt (by rw [hnext.sfh]; omega)
          rw [hfound] at hcame
          exact ⟨last, locn, hmore, Came.behind hnext hcame⟩

theorem Attached.seqBlock (hdb : Attached hashFun db chains map) {idx depth start : Nat}
    {bucket : BucketChain} {block : Block} (hidx : idx < 2 ^ db.sfh.dpow)
    (hhere : Here db chains idx depth bucket block) {ptr : Option Key}
    (hstart : HashDb.bucketAfter hashFun db ptr = start)
    (hle : start ≤ 2 ^ db.sfh.dpow)
    (hsame : recordsBefore chains (idx + 1) 0 = recordsBefore chains idx (depth + 1) →
      recordsBefore chains start 0 = recordsBefore chains idx (depth + 1)) :
    ∃ next locn, db.seqBlock hashFun idx depth ptr = some (next, locn) ∧
      Came hashFun chains map db next (recordsBefore chains idx (depth + 1)) locn := by
  obtain ⟨hkept, hreached⟩ := hdb.loadNext hidx hhere
  have hlt := (List.getElem?_eq_some_iff.mp hhere.meant).1
  have hlength := hdb.layout.chain_length_le hidx
  have hfuel : (chains idx).length < db.sfh.nBlock + 1 + (depth + 1) := by omega
  obtain ⟨next, found, hskip, hnext, hfound⟩ := hkept.attached.skipEmpty
    (by rw [hkept.sfh]; exact hidx) hreached hlt hfuel
  have hwhole := hkept.trans hnext
  unfold HashDb.seqBlock
  simp only [hskip, Option.bind_eq_bind, Option.bind_some]
  cases found with
  | some other =>
    obtain ⟨hbefore, hother⟩ := hfound
    exact ⟨next, some ⟨idx, other, 0⟩, rfl, hwhole, hidx, rfl, hbefore, hother⟩
  | none =>
    have hafter : HashDb.bucketAfter hashFun next ptr = start := by
      rw [← hstart]
      cases ptr with
      | none => rfl
      | some key =>
        simp only [HashDb.bucketAfter, hwhole.attached.index_eq, hwhole.sfh, hdb.index_eq]
    simp only [hafter, hwhole.attached.directory]
    have hleft : 2 ^ next.sfh.dpow < 2 ^ next.sfh.dpow + 1 + start := by omega
    obtain ⟨last, locn, hbucket, hcame⟩ :=
      hwhole.attached.nextBucket (by rw [hwhole.sfh]; exact hle) hleft
    rw [hsame hfound] at hcame
    exact ⟨last, locn, hbucket, Came.behind hwhole hcame⟩

/-- The cursor points to a record of a loaded block. -/
structure Points (db : HashDb) (chains : Nat → List Block) (locn : Locn) (block : Block)
    (left : List (Key × Value)) (entry : Key × Value) (right : List (Key × Value)) : Prop where
  idx : locn.idx < 2 ^ db.sfh.dpow
  here : ∃ bucket, Here db chains locn.idx locn.depth bucket block
  records : block.records = left ++ entry :: right
  p : locn.p = (packed left).length

section Points

variable {locn : Locn} {block : Block} {left right : List (Key × Value)} {entry : Key × Value}

theorem Points.str_eq (hpoints : Points db chains locn block left entry right) :
    block.str = packed left ++ record entry.1 entry.2 ++ (packed right ++ block.rest) := by
  unfold Block.str
  rw [hpoints.records, packed_append, List.append_assoc, List.append_assoc]
  exact congrArg _ (List.append_assoc _ _ _)

theorem Points.reads (hpoints : Points db chains locn block left entry right)
    (hdb : Attached hashFun db chains map) :
    peekSize block.str locn.p = some entry.1.length ∧
    peekSize block.str (locn.p + 8) = some entry.2.length ∧
    peek block.str (locn.p + 8 + 8) entry.1.length = some entry.1 ∧
    peek block.str (locn.p + 8 + 8 + entry.1.length) entry.2.length = some entry.2 := by
  obtain ⟨bucket, hhere⟩ := hpoints.here
  obtain ⟨hkey, hvalue⟩ := (hhere.fits hdb hpoints.idx).sizes hdb.layout.size entry (by
    rw [hpoints.records]
    exact List.mem_append_right _ List.mem_cons_self)
  rw [hpoints.str_eq, hpoints.p]
  exact record_reads (packed left) (packed right ++ block.rest) hkey hvalue

theorem Points.num_ne (hpoints : Points db chains locn block left entry right)
    (hdb : Attached hashFun db chains map) {bucket : BucketChain}
    (hhere : Here db chains locn.idx locn.depth bucket block) : ¬bucket.num = 0 := by
  intro hzero
  have hnil := (hhere.num_eq hdb hpoints.idx).mp hzero
  rw [hpoints.records] at hnil
  exact List.append_ne_nil_of_right_ne_nil _ (List.cons_ne_nil _ _) hnil

theorem Points.get_ (hpoints : Points db chains locn block left entry right)
    (hdb : Attached hashFun db chains map) (hopen : db.isOpen = true) (keyRoom valRoom : Nat) :
    db.get_ (some locn) keyRoom valRoom =
      if entry.1.length ≤ keyRoom ∧ entry.2.length ≤ valRoom then some (some entry) else none := by
  obtain ⟨bucket, hhere⟩ := hpoints.here
  obtain ⟨hksz, hvsz, hstored, hread⟩ := hpoints.reads hdb
  unfold HashDb.get_
  rw [if_neg (not_closed hopen)]
  simp only [hhere.inMemory, (hhere.shows hdb hpoints.idx).str hhere.loaded,
    if_neg (hpoints.num_ne hdb hhere), hksz, hvsz, hstored, hread, Option.bind_eq_bind,
    Option.bind_some]

theorem Points.slot_eq (hpoints : Points db chains locn block left entry right)
    (hdb : Attached hashFun db chains map) : slot hashFun db.sfh.dpow entry.1 = locn.idx := by
  obtain ⟨bucket, hhere⟩ := hpoints.here
  refine hdb.layout.slot_eq hpoints.idx hhere.meant entry ?_
  rw [hpoints.records]
  exact List.mem_append_right _ List.mem_cons_self

end Points

def inOrder (db : HashDb) (chains : Nat → List Block) : List (Key × Value) :=
  contents (2 ^ db.sfh.dpow) fun i => recordsOf (chains i)

theorem Kept.inOrder {next : HashDb} (hkept : Kept hashFun chains map db next) :
    Db.inOrder next chains = Db.inOrder db chains := by
  unfold Db.inOrder
  rw [hkept.sfh]

/-- The cursor is at the record behind these, or at the end. -/
def Arrived (db : HashDb) (chains : Nat → List Block) (before : List (Key × Value))
    (locn : Option Locn) : Prop :=
  match locn with
  | some locn => ∃ block left entry right, Points db chains locn block left entry right ∧
      recordsBefore chains locn.idx locn.depth ++ left = before
  | none => inOrder db chains = before

theorem Came.arrived {next : HashDb} {before : List (Key × Value)} {locn : Option Locn}
    (hcame : Came hashFun chains map db next before locn) : Arrived next chains before locn := by
  obtain ⟨hkept, hlocn⟩ := hcame
  cases locn with
  | none => exact hkept.inOrder.trans hlocn
  | some locn =>
    obtain ⟨hidx, hp, hbefore, bucket, block, hhere, hne⟩ := hlocn
    obtain ⟨entry, right, hrecords⟩ := List.exists_cons_of_ne_nil hne
    have hidxNext : locn.idx < 2 ^ next.sfh.dpow := by
      rw [hkept.sfh]
      exact hidx
    exact ⟨block, [], entry, right, ⟨hidxNext, ⟨bucket, hhere⟩, hrecords, hp⟩,
      (List.append_nil _).trans hbefore⟩

private theorem endOf_packed {records : List (Key × Value)} (back : List UInt8)
    (hsizes : ∀ entry ∈ records, entry.1.length < 2 ^ 64 ∧ entry.2.length < 2 ^ 64)
    (front : List UInt8) :
    endOf (front ++ packed records ++ back) records.length front.length =
      some (front ++ packed records).length := by
  induction records generalizing front with
  | nil => simp [endOf]
  | cons entry rest ih =>
    obtain ⟨key, value⟩ := entry
    obtain ⟨hkey, hvalue⟩ := hsizes (key, value) List.mem_cons_self
    have hrest := ih (fun other hother => hsizes other (List.mem_cons_of_mem _ hother))
      (front ++ record key value)
    have hmiddle : front ++ packed ((key, value) :: rest) ++ back =
        front ++ record key value ++ (packed rest ++ back) := by simp
    have hsame : front ++ record key value ++ packed rest ++ back =
        front ++ packed ((key, value) :: rest) ++ back := by simp
    have hplace : (front ++ record key value).length =
        front.length + 8 + 8 + (key.length + value.length) := by
      rw [List.length_append, record_length]
      omega
    obtain ⟨hksz, hvsz, -, -⟩ := record_reads front (packed rest ++ back) hkey hvalue
    rw [← hmiddle] at hksz hvsz
    rw [hsame, hplace] at hrest
    rw [List.length_cons]
    unfold endOf
    simp only [hksz, hvsz, hrest, Option.bind_eq_bind, Option.bind_some]
    simp

theorem Points.ended_iff {locn : Locn} {block : Block} {left right : List (Key × Value)}
    {entry : Key × Value} (hpoints : Points db chains locn block left entry right)
    (hdb : Attached hashFun db chains map) :
    ended db locn = true ↔ peekSize block.str (packed block.records).length = some 0 := by
  obtain ⟨bucket, hhere⟩ := hpoints.here
  have hfits := hhere.fits hdb hpoints.idx
  have hshows := hhere.shows hdb hpoints.idx
  have hcount : bucket.num.toNatClampNeg = block.records.length := by
    rw [hshows.num hhere.loaded]
    exact Int32.toNatClampNeg_ofNat_of_lt hfits.countable
  have hend : endOf block.str block.records.length 0 = some (packed block.records).length :=
    endOf_packed block.rest (hfits.sizes hdb.layout.size) []
  unfold ended
  simp only [hhere.inMemory, hshows.str hhere.loaded, hcount, hend, Option.bind_some]
  cases peekSize block.str (packed block.records).length <;> simp

theorem Points.seq_ {locn : Locn} {block : Block} {left right : List (Key × Value)}
    {entry : Key × Value} (hpoints : Points db chains locn block left entry right)
    (hdb : Attached hashFun db chains map) (hopen : db.isOpen = true)
    (hended : ended db locn = true) :
    ∃ next found, HashDb.seq_ hashFun db (some locn) = some (next, found, true) ∧
      Kept hashFun chains map db next ∧
      Arrived next chains (recordsBefore chains locn.idx locn.depth ++ left ++ [entry]) found := by
  obtain ⟨bucket, hhere⟩ := hpoints.here
  obtain ⟨hksz, hvsz, hstored, hread⟩ := hpoints.reads hdb
  obtain ⟨idx, depth, p⟩ := locn
  have hplace : p + 8 + 8 + entry.1.length + entry.2.length = (packed (left ++ [entry])).length := by
    obtain ⟨key, value⟩ := entry
    have hp : p = (packed left).length := hpoints.p
    rw [packed_append, packed_cons, packed_nil, List.append_nil, List.length_append, record_length]
    simp only
    omega
  unfold HashDb.seq_
  rw [if_neg (not_closed hopen)]
  simp only [hhere.inMemory, (hhere.shows hdb hpoints.idx).str hhere.loaded,
    if_pos (hpoints.num_ne hdb hhere), hksz, hvsz, hstored, hplace, Option.bind_eq_bind,
    Option.bind_some]
  cases right with
  | nil =>
    -- the last record of the block
    have hrecords : block.records = left ++ [entry] := hpoints.records
    have hzero := (hpoints.ended_iff hdb).mp hended
    rw [hrecords] at hzero
    have hafter : HashDb.bucketAfter hashFun db (some entry.1) = idx + 1 := by
      simp only [HashDb.bucketAfter, hdb.index_eq, hpoints.slot_eq hdb]
    have hle : idx + 1 ≤ 2 ^ db.sfh.dpow := hpoints.idx
    obtain ⟨next, found, hseq, hcame⟩ := hdb.seqBlock hpoints.idx hhere hafter hle id
    have hbefore : recordsBefore chains idx (depth + 1) =
        recordsBefore chains idx depth ++ left ++ [entry] := by
      rw [recordsBefore_succ hhere.meant, hrecords, List.append_assoc]
    simp only [hzero, hseq, Option.bind_some, if_true]
    rw [hbefore] at hcame
    exact ⟨next, found, rfl, hcame.1, hcame.arrived⟩
  | cons entry' right =>
    have hrecords : block.records = (left ++ [entry]) ++ entry' :: right := by
      rw [hpoints.records]
      simp
    have hnext : Points db chains ⟨idx, depth, (packed (left ++ [entry])).length⟩ block
        (left ++ [entry]) entry' right := ⟨hpoints.idx, ⟨bucket, hhere⟩, hrecords, rfl⟩
    have hkeyed : ¬entry'.1.length = 0 := by
      intro hzero
      refine (hhere.fits hdb hpoints.idx).keyed entry' ?_ (List.eq_nil_of_length_eq_zero hzero)
      rw [hrecords]
      exact List.mem_append_right _ List.mem_cons_self
    have hsize := (hnext.reads hdb).1
    simp only [hsize, Option.bind_some, if_neg hkeyed]
    exact ⟨db, _, rfl, ⟨rfl, rfl, hdb⟩, block, left ++ [entry], entry', right, hnext,
      (List.append_assoc _ _ _).symm⟩

/-- What a cursor has come to after it saw these records. -/
def SeenAt (db : HashDb) (chains : Nat → List Block) (locn : Option Locn)
    (seen : List (Key × Value)) : Prop :=
  match locn with
  | some locn => ∃ block left entry right, Points db chains locn block left entry right ∧
      seen = recordsBefore chains locn.idx locn.depth ++ left ++ [entry]
  | none => seen = inOrder db chains

theorem Points.inOrder {locn : Locn} {block : Block} {left right : List (Key × Value)}
    {entry : Key × Value} (hpoints : Points db chains locn block left entry right) :
    ∃ back, Db.inOrder db chains =
      (recordsBefore chains locn.idx locn.depth ++ left) ++ entry :: back := by
  obtain ⟨bucket, hhere⟩ := hpoints.here
  exact contents_split hpoints.idx hhere.meant hpoints.records

private theorem split_unique {order front back front' back' : List (Key × Value)}
    {entry entry' : Key × Value} (hdistinct : (order.map Prod.fst).Nodup)
    (hsplit : order = front ++ entry :: back) (hsplit' : order = front' ++ entry' :: back')
    (hkey : entry'.1 = entry.1) : front' = front ∧ entry' = entry := by
  have hmem : entry ∈ order := by
    rw [hsplit]
    exact List.mem_append_right _ List.mem_cons_self
  have hmem' : entry' ∈ order := by
    rw [hsplit']
    exact List.mem_append_right _ List.mem_cons_self
  have hentry : entry' = entry := List.inj_on_of_nodup_map hdistinct hmem' hmem hkey
  have hnodup : (front ++ entry :: back).Nodup := hsplit ▸ hdistinct.of_map
  have hfront : entry ∉ front := fun hin =>
    (List.disjoint_of_nodup_append hnodup) hin List.mem_cons_self
  have hback : entry ∉ back :=
    (List.nodup_cons.mp (List.nodup_append.mp hnodup).2.1).1
  have hsame := hsplit.symm.trans hsplit'
  rw [hentry] at hsame
  exact ⟨((List.append_cons_inj_of_notMem hfront hback).mp hsame).1.symm, hentry⟩

private theorem recordsBefore_le {idx depth later : Nat} (hle : depth ≤ later) :
    (recordsBefore chains idx depth).length ≤ (recordsBefore chains idx later).length := by
  unfold recordsBefore
  rw [List.length_append, List.length_append]
  refine Nat.add_le_add_left (List.Sublist.length_le ?_) _
  exact (List.take_sublist_take_left hle).flatMap _

theorem Points.depth_le {idx depth depth' p : Nat} {block : Block}
    {left right left' : List (Key × Value)} {entry : Key × Value}
    (hpoints : Points db chains ⟨idx, depth, p⟩ block left entry right)
    (hsame : recordsBefore chains idx depth' ++ left' = recordsBefore chains idx depth ++ left) :
    depth' ≤ depth := by
  by_contra hlt
  obtain ⟨bucket, hhere⟩ := hpoints.here
  have hmono : (recordsBefore chains idx (depth + 1)).length ≤
      (recordsBefore chains idx depth').length := recordsBefore_le (by omega)
  have hlength := congrArg List.length hsame
  rw [recordsBefore_succ hhere.meant, hpoints.records] at hmono
  simp only [List.length_append, List.length_cons] at hmono hlength
  omega

theorem Points.unique {other : HashDb} {idx depth depth' p p' : Nat} {block block' : Block}
    {left right left' right' : List (Key × Value)} {entry entry' : Key × Value}
    (hpoints : Points db chains ⟨idx, depth, p⟩ block left entry right)
    (hother : Points other chains ⟨idx, depth', p'⟩ block' left' entry' right')
    (horder : Db.inOrder other chains = Db.inOrder db chains)
    (hdistinct : ((Db.inOrder db chains).map Prod.fst).Nodup) (hkey : entry'.1 = entry.1) :
    depth' = depth ∧ p' = p := by
  obtain ⟨back, hback⟩ := hpoints.inOrder
  obtain ⟨back', hback'⟩ := hother.inOrder
  rw [horder] at hback'
  obtain ⟨hfront, hentry⟩ := split_unique hdistinct hback hback' hkey
  have hdepth : depth' = depth :=
    Nat.le_antisymm (hpoints.depth_le hfront) (hother.depth_le hfront.symm)
  refine ⟨hdepth, ?_⟩
  rw [hdepth] at hfront
  have hp : p' = (packed left').length := hother.p
  rw [hp, List.append_cancel_left hfront]
  exact hpoints.p.symm

theorem Attached.found_again {next : HashDb} {locn : Locn} {block : Block}
    {left right : List (Key × Value)} {entry : Key × Value} (hdb : Attached hashFun db chains map)
    (hopen : db.isOpen = true) (hpoints : Points db chains locn block left entry right)
    (hkept : Kept hashFun chains map db next) :
    ∃ last, HashDb.search_ hashFun next entry.1 = some (last, true, some ⟨locn.depth, locn.p⟩) ∧
      Kept hashFun chains map db last ∧ Points last chains locn block left entry right := by
  have hslot : slot hashFun next.sfh.dpow entry.1 = locn.idx := by
    rw [hkept.sfh]
    exact hpoints.slot_eq hdb
  have hpresent : entry ∈ recordsOf (chains locn.idx) := by
    obtain ⟨bucket, hhere⟩ := hpoints.here
    refine List.mem_flatMap.mpr ⟨block, List.mem_of_getElem? hhere.meant, ?_⟩
    rw [hpoints.records]
    exact List.mem_append_right _ List.mem_cons_self
  have hopenNext : next.isOpen = true := hkept.isOpen.trans hopen
  rcases hkept.attached.search_ hopenNext entry.1 with
    ⟨hnil, -⟩ | ⟨walk, activeNum, hsearch, hdbNew, stop, hfinds | hmisses⟩
  · rw [hslot] at hnil
    rw [hnil] at hpresent
    cases hpresent
  · obtain ⟨hfound, before, value, after, hrecords, -, hp⟩ := hfinds
    rw [hslot] at hsearch hdbNew
    rw [hfound] at hsearch
    have hblock : (chains locn.idx)[walk.locn.depth]? = some stop.block := by
      rw [← hslot]
      exact stop.block_eq
    have hlast : Kept hashFun chains map db { next with
        entry := Function.update next.entry locn.idx walk.chain
        activeNum := activeNum } := ⟨hkept.isOpen, hkept.sfh, hdbNew⟩
    have hhere : Here { next with
        entry := Function.update next.entry locn.idx walk.chain
        activeNum := activeNum } chains locn.idx walk.locn.depth stop.bucket stop.block := by
      refine ⟨?_, hblock, stop.loaded⟩
      simp only [Function.update_self]
      exact stop.bucket_eq
    have hidx : locn.idx < 2 ^ next.sfh.dpow := by
      rw [hkept.sfh]
      exact hpoints.idx
    have hagain : Points { next with
        entry := Function.update next.entry locn.idx walk.chain
        activeNum := activeNum } chains ⟨locn.idx, walk.locn.depth, walk.locn.p⟩ stop.block before
        (entry.1, value) after := ⟨hidx, ⟨stop.bucket, hhere⟩, hrecords, hp⟩
    have hdistinct : ((inOrder db chains).map Prod.fst).Nodup :=
      (hdb.layout.perm.map Prod.fst).nodup_iff.mpr hdb.layout.distinct
    obtain ⟨hdepth, hplace⟩ := hpoints.unique hagain hlast.inOrder hdistinct rfl
    have hsame : stop.block = block := by
      obtain ⟨bucket, hbefore⟩ := hpoints.here
      rw [hdepth] at hblock
      exact Option.some.inj (hblock.symm.trans hbefore.meant)
    have hcursor : walk.locn = ⟨locn.depth, locn.p⟩ := by
      rw [← hdepth, ← hplace]
    rw [hcursor] at hsearch
    rw [hdepth, hsame] at hhere
    exact ⟨_, hsearch, hlast, hidx, ⟨stop.bucket, hhere⟩, hpoints.records, hpoints.p⟩
  · have hmissed := stop.lookup_missed hmisses
    rw [hslot] at hmissed
    exact absurd rfl (lookup_eq_none.mp hmissed entry hpresent)

theorem Points.safeFlushCache {locn : Locn} {block : Block} {left right : List (Key × Value)}
    {entry : Key × Value} (hpoints : Points db chains locn block left entry right)
    (hdb : Attached hashFun db chains map) (hopen : db.isOpen = true)
    (hcarried : carried db (some locn) = true) :
    ∃ next, HashDb.safeFlushCache hashFun db (some locn) = some (next, some locn) ∧
      Kept hashFun chains map db next ∧ Points next chains locn block left entry right := by
  unfold HashDb.safeFlushCache
  split_ifs with hdue
  · have hget := hpoints.get_ hdb hopen 1024 (1024 * 64)
    unfold carried at hcarried
    rw [decide_eq_false (Nat.not_le_of_gt hdue), Bool.false_or, hget] at hcarried
    split_ifs at hcarried hget with hrooms
    · obtain ⟨file, entries, activeNum, dirtyPageNum, hfirst, hflushed⟩ := hdb.flushCacheImpl
      obtain ⟨file', entries', activeNum', dirtyPageNum', hsecond, hflushed'⟩ := hflushed.flushCache
      have hkept : Kept hashFun chains map db db.flushCacheImpl.flushCache :=
        ⟨by rw [hsecond, hfirst], by rw [hsecond, hfirst], hflushed'⟩
      obtain ⟨last, hsearch, hlast, hagain⟩ := hdb.found_again hopen hpoints hkept
      have hindex : HashDb.index hashFun last entry.1 = locn.idx := by
        rw [hlast.attached.index_eq, hlast.sfh]
        exact hpoints.slot_eq hdb
      refine ⟨last, ?_, hlast, hagain⟩
      simp only [hget, hsearch, Option.bind_eq_bind, Option.bind_some, Option.map_some, hindex]
    · cases hcarried
  · exact ⟨db, rfl, ⟨rfl, rfl, hdb⟩, hpoints⟩

/-- An iterator that went this many records far, if there are so many. -/
structure Went (hashFun : Key → UInt32) (chains : Nat → List Block) (map : Map)
    (order : List (Key × Value)) (count : Nat) (reader : Reader) : Prop where
  isOpen : reader.db.isOpen = true
  attached : Attached hashFun reader.db chains map
  walk : inOrder reader.db chains = order
  at_ : SeenAt reader.db chains reader.locn reader.seen
  seen : reader.seen = order.take count
  exhausted : reader.locn = none ↔ order.length < count

private theorem look_none (hopen : db.isOpen = true) (seen : List (Key × Value)) :
    Reader.look db none seen = some ⟨db, none, seen⟩ := by
  have hget : db.get_ none (2 ^ 64) (2 ^ 64) = some none := by
    unfold HashDb.get_
    rw [if_neg (not_closed hopen)]
  simp only [Reader.look, hget, Option.bind_eq_bind, Option.bind_some, Option.toList_none,
    List.append_nil]

theorem Arrived.look (hdb : Attached hashFun db chains map) (hopen : db.isOpen = true)
    {order seen : List (Key × Value)} {count : Nat} {locn : Option Locn}
    (horder : inOrder db chains = order) (harrived : Arrived db chains seen locn)
    (hseen : seen = order.take count) :
    ∃ reader, Reader.look db locn seen = some reader ∧
      Went hashFun chains map order (count + 1) reader := by
  cases locn with
  | none =>
    have hall : order = seen := horder.symm.trans harrived
    have hshort : order.length ≤ count := by
      rw [← hall] at hseen
      have hle := congrArg List.length hseen
      rw [List.length_take] at hle
      omega
    refine ⟨_, look_none hopen seen, hopen, hdb, horder, harrived.symm, ?_, ?_⟩
    · rw [← hall, List.take_of_length_le (Nat.le_succ_of_le hshort)]
    · exact iff_of_true rfl (Nat.lt_succ_of_le hshort)
  | some locn =>
    obtain ⟨block, left, entry, right, hpoints, hbefore⟩ := harrived
    obtain ⟨back, hback⟩ := hpoints.inOrder
    rw [horder, hbefore] at hback
    have hlength : seen.length = count := by
      have hle := congrArg List.length hseen
      have hmore := congrArg List.length hback
      rw [List.length_take] at hle
      rw [List.length_append, List.length_cons] at hmore
      omega
    obtain ⟨bucket, hhere⟩ := hpoints.here
    obtain ⟨hkey, hvalue⟩ := (hhere.fits hdb hpoints.idx).sizes hdb.layout.size entry (by
      rw [hpoints.records]
      exact List.mem_append_right _ List.mem_cons_self)
    have hget := hpoints.get_ hdb hopen (2 ^ 64) (2 ^ 64)
    rw [if_pos ⟨Nat.le_of_lt hkey, Nat.le_of_lt hvalue⟩] at hget
    refine ⟨⟨db, some locn, seen ++ [entry]⟩, ?_, hopen, hdb, horder,
      ⟨block, left, entry, right, hpoints, by rw [hbefore]⟩, ?_, ?_⟩
    · simp only [Reader.look, hget, Option.bind_eq_bind, Option.bind_some, Option.toList_some]
    · have hsplit : order = (seen ++ [entry]) ++ back := by
        rw [hback]
        simp
      rw [hsplit, ← hlength, List.take_left' (by simp)]
    · refine iff_of_false (fun hnone => nomatch hnone) ?_
      rw [hback, List.length_append, List.length_cons]
      omega

theorem Went.next {order : List (Key × Value)} {count : Nat} {reader : Reader}
    (hwent : Went hashFun chains map order count reader) (hsafe : reader.Safe ()) :
    ∃ next, Reader.next hashFun reader () = some next ∧
      Went hashFun chains map order (count + 1) next := by
  obtain ⟨db, locn, seen⟩ := reader
  obtain ⟨hopen, hdb, horder, hat, hseen, hexhausted⟩ := hwent
  obtain ⟨hcarried, hended⟩ := hsafe
  simp only at hopen hdb horder hat hseen hexhausted hcarried hended
  cases locn with
  | none =>
    have hidle : db.activeNum.toNat ≤ db.sfh.cacheSize := by
      have hget : db.get_ none 1024 (1024 * 64) = some none := by
        unfold HashDb.get_
        rw [if_neg (not_closed hopen)]
      unfold carried at hcarried
      rw [hget] at hcarried
      simpa using hcarried
    have hflush : HashDb.safeFlushCache hashFun db none = some (db, none) := by
      unfold HashDb.safeFlushCache
      rw [if_neg (Nat.not_lt_of_le hidle)]
    have hseq : HashDb.seq_ hashFun db none = some (db, none, false) := by
      unfold HashDb.seq_
      rw [if_neg (not_closed hopen)]
    have hshort : order.length < count := hexhausted.mp rfl
    refine ⟨⟨db, none, seen⟩, ?_, hopen, hdb, horder, hat, ?_, ?_⟩
    · simp only [Reader.next, HashDb.seq, hflush, hseq, look_none hopen, Option.bind_eq_bind,
        Option.bind_some]
    · rw [hseen, List.take_of_length_le (Nat.le_of_lt hshort), List.take_of_length_le (by omega)]
    · exact iff_of_true rfl (Nat.lt_succ_of_lt hshort)
  | some locn =>
    obtain ⟨block, left, entry, right, hpoints, hbefore⟩ := hat
    obtain ⟨kept, hflush, hkept, hpointsKept⟩ := hpoints.safeFlushCache hdb hopen hcarried
    have hendedKept : ended kept locn = true :=
      (hpointsKept.ended_iff hkept.attached).mpr
        ((hpoints.ended_iff hdb).mp hended)
    obtain ⟨next, found, hseq, hnext, harrived⟩ :=
      hpointsKept.seq_ hkept.attached (hkept.isOpen.trans hopen) hendedKept
    have hwhole := hkept.trans hnext
    rw [← hbefore] at harrived
    obtain ⟨last, hlook, hlast⟩ := harrived.look hwhole.attached (hwhole.isOpen.trans hopen)
      (hwhole.inOrder.trans horder) hseen
    refine ⟨last, ?_, hlast⟩
    simp only [Reader.next, HashDb.seq, hflush, hseq, hlook, Option.bind_eq_bind, Option.bind_some]

theorem Attached.firstBucket (hdb : Attached hashFun db chains map) {left idx : Nat}
    (hall : idx + left = 2 ^ db.sfh.dpow) (hbefore : recordsBefore chains idx 0 = [])
    (hnonempty : inOrder db chains ≠ []) :
    ∃ next first, HashDb.firstBucket left db idx = (next, some ⟨first, 0, 0⟩) ∧
      Kept hashFun chains map db next ∧ first < 2 ^ db.sfh.dpow ∧
      recordsBefore chains first 0 = [] ∧ ∃ bucket block, Here next chains first 0 bucket block := by
  induction left generalizing idx with
  | zero =>
    have hempty : inOrder db chains = [] := by
      rw [recordsBefore_zero, show idx = 2 ^ db.sfh.dpow from hall] at hbefore
      exact hbefore
    exact absurd hempty hnonempty
  | succ left ih =>
    have hidx : idx < 2 ^ db.sfh.dpow := by omega
    obtain ⟨hholds, hnil⟩ := hdb.enter hidx
    unfold HashDb.firstBucket
    split_ifs with hempty
    · have hchain : chains idx = [] := hnil (List.isEmpty_iff.mp hempty)
      have hend : (chains idx).length ≤ 0 := by
        rw [hchain]
        exact Nat.le_refl 0
      exact ih (by omega) ((recordsBefore_end hend).symm.trans hbefore)
    · obtain ⟨hkept, hreached⟩ := hdb.enterLoaded hidx
      refine ⟨_, idx, rfl, hkept, hidx, hbefore, ?_⟩
      rcases hreached with hhere | ⟨-, hend⟩
      · exact hhere
      · obtain ⟨bucket, next, henter⟩ := List.exists_cons_of_ne_nil
          (fun hnone => hempty (List.isEmpty_iff.mpr hnone))
        rw [henter, List.eq_nil_of_length_eq_zero (Nat.le_zero.mp hend)] at hholds
        exact absurd hholds id

theorem Arrived.firstRecord (hdb : Attached hashFun db chains map) (hopen : db.isOpen = true)
    {locn : Option Locn} (harrived : Arrived db chains [] locn)
    (hnonempty : inOrder db chains ≠ []) (hfirst : firstFits db = true) (fuel : Nat) :
    HashDb.firstRecord hashFun (fuel + 1) db locn = some (db, locn) := by
  cases locn with
  | none => exact absurd harrived hnonempty
  | some locn =>
    obtain ⟨block, left, entry, right, hpoints, hbefore⟩ := harrived
    obtain ⟨back, hback⟩ := hpoints.inOrder
    rw [hbefore, List.nil_append] at hback
    have hkey : entry.1.length ≤ 1024 := by
      unfold firstFits at hfirst
      have hstored : db.stored db.directorySize = some (entry :: back) :=
        hdb.stored_eq.trans (congrArg some hback)
      rw [hstored] at hfirst
      exact of_decide_eq_true hfirst
    have hvalue : entry.2.length ≤ db.sfh.bucketSize - 4 - 8 := by
      obtain ⟨bucket, hhere⟩ := hpoints.here
      have hroom := (hhere.fits hdb hpoints.idx).room
      have hle : (record entry.1 entry.2).length ≤ (packed block.records).length := by
        refine record_length_le_packed ?_
        rw [hpoints.records]
        exact List.mem_append_right _ List.mem_cons_self
      rw [record_length] at hle
      omega
    have hget := hpoints.get_ hdb hopen 1024 (db.sfh.bucketSize - 4 - 8)
    rw [if_pos ⟨hkey, hvalue⟩] at hget
    unfold HashDb.firstRecord
    simp only [hget, Option.bind_eq_bind, Option.bind_some]

theorem Kept.firstFits {next : HashDb} (hkept : Kept hashFun chains map db next)
    (hdb : Attached hashFun db chains map) : firstFits next = firstFits db := by
  unfold Db.firstFits
  rw [hkept.attached.stored_eq, hdb.stored_eq, hkept.sfh]

theorem Attached.getFirstLocn (hdb : Attached hashFun db chains map) (hopen : db.isOpen = true)
    (hnonempty : inOrder db chains ≠ []) (hfirst : firstFits db = true) :
    ∃ next locn, HashDb.getFirstLocn hashFun db = some (next, locn) ∧
      Kept hashFun chains map db next ∧ Arrived next chains [] locn := by
  have hitems : ¬db.sfh.numItems = 0 := by
    rw [hdb.count, Nat.mod_eq_of_lt hdb.layout.map_length_lt, ← hdb.layout.perm.length_eq]
    exact fun hzero => hnonempty (List.eq_nil_of_length_eq_zero hzero)
  have hbefore : recordsBefore chains 0 0 = [] := rfl
  have hall : 0 + db.directorySize = 2 ^ db.sfh.dpow := by rw [hdb.directory, Nat.zero_add]
  obtain ⟨start, first, hbucket, hkept, hidx, hfront, bucket, block, hhere⟩ :=
    hdb.firstBucket hall hbefore hnonempty
  have hdbStart := hkept.attached
  have hopenStart := hkept.isOpen.trans hopen
  have hidxStart : first < 2 ^ start.sfh.dpow := by
    rw [hkept.sfh]
    exact hidx
  have hstored : inOrder start chains ≠ [] := by
    rw [hkept.inOrder]
    exact hnonempty
  unfold HashDb.getFirstLocn
  rw [if_neg hitems]
  simp only [hbucket]
  by_cases hrecords : block.records = []
  · -- the block is empty: `seq_` looks for another one
    have hget : start.get_ (some ⟨first, 0, 0⟩) 1024 (start.sfh.bucketSize - 4 - 8) = some none := by
      unfold HashDb.get_
      rw [if_neg (not_closed hopenStart)]
      simp only [hhere.inMemory, (hhere.num_eq hdbStart hidxStart).mpr hrecords,
        Option.bind_eq_bind, Option.bind_some, if_true]
    have hnothing : recordsBefore chains first 1 = [] := by
      rw [recordsBefore_succ hhere.meant, hrecords, List.append_nil, hfront]
    obtain ⟨next, locn, hseq, hcame⟩ := @Attached.seqBlock hashFun start chains map hdbStart first 0
      0 bucket block hidxStart hhere none rfl (Nat.zero_le _) (fun _ => hnothing.symm)
    rw [hnothing] at hcame
    have hwhole := hkept.trans hcame.1
    have hone : HashDb.firstRecord hashFun 1 next locn = some (next, locn) :=
      hcame.arrived.firstRecord hwhole.attached (hwhole.isOpen.trans hopen)
        (by rw [hwhole.inOrder]; exact hnonempty) (by rw [hwhole.firstFits hdb]; exact hfirst) 0
    have hstep : HashDb.seq_ hashFun start (some ⟨first, 0, 0⟩) = some (next, locn, true) := by
      unfold HashDb.seq_
      rw [if_neg (not_closed hopenStart)]
      have hnum := (hhere.num_eq hdbStart hidxStart).mpr hrecords
      simp only [hhere.inMemory, hnum, hseq, Option.bind_eq_bind, Option.bind_some, ne_eq,
        not_true_eq_false, if_false]
    refine ⟨next, locn, ?_, hwhole, hcame.arrived⟩
    unfold HashDb.firstRecord
    simp only [hget, hstep, hone, Option.bind_eq_bind, Option.bind_some]
  · obtain ⟨entry, right, hsplit⟩ := List.exists_cons_of_ne_nil hrecords
    have harrived : Arrived start chains [] (some ⟨first, 0, 0⟩) :=
      ⟨block, [], entry, right, ⟨hidxStart, ⟨bucket, hhere⟩, hsplit, rfl⟩,
        (List.append_nil _).trans hfront⟩
    exact ⟨start, some ⟨first, 0, 0⟩, harrived.firstRecord hdbStart hopenStart hstored
      (by rw [hkept.firstFits hdb]; exact hfirst) 1, hkept, harrived⟩

theorem Attached.getFirstLocn_empty (hdb : Attached hashFun db chains map)
    (hempty : inOrder db chains = []) : HashDb.getFirstLocn hashFun db = some (db, none) := by
  have hitems : db.sfh.numItems = 0 := by
    have hperm : (inOrder db chains).Perm map := hdb.layout.perm
    rw [hdb.count, ← hperm.length_eq, hempty]
    rfl
  unfold HashDb.getFirstLocn
  rw [if_pos hitems]

theorem Attached.first (hdb : Attached hashFun db chains map) (hopen : db.isOpen = true)
    (hfirst : firstFits db = true) :
    ∃ reader, Reader.first hashFun db = some reader ∧
      Went hashFun chains map (inOrder db chains) 1 reader := by
  have hlocn : ∃ next locn, HashDb.getFirstLocn hashFun db = some (next, locn) ∧
      Kept hashFun chains map db next ∧ Arrived next chains [] locn := by
    by_cases hempty : inOrder db chains = []
    · exact ⟨db, none, hdb.getFirstLocn_empty hempty, ⟨rfl, rfl, hdb⟩, hempty⟩
    · exact hdb.getFirstLocn hopen hempty hfirst
  obtain ⟨next, locn, hlocn, hkept, harrived⟩ := hlocn
  obtain ⟨reader, hlook, hwent⟩ := harrived.look hkept.attached (hkept.isOpen.trans hopen)
    hkept.inOrder (List.take_zero).symm
  refine ⟨reader, ?_, hwent⟩
  simp only [Reader.first, hlocn, hlook, Option.bind_eq_bind, Option.bind_some]

theorem Went.run {order : List (Key × Value)} {count steps : Nat} {reader : Reader}
    (hwent : Went hashFun chains map order count reader)
    (hsafe : Along (Reader.next hashFun) Reader.Safe reader (List.replicate steps ())) :
    ∃ last, Lib.run (Reader.next hashFun) reader (List.replicate steps ()) = some last ∧
      Went hashFun chains map order (count + steps) last := by
  induction steps generalizing count reader with
  | zero => exact ⟨reader, rfl, hwent⟩
  | succ steps ih =>
    obtain ⟨next, hnext, hwentNext⟩ := hwent.next hsafe.1
    obtain ⟨last, hlast, hwentLast⟩ := ih hwentNext (hsafe.2 next hnext)
    rw [Nat.add_assoc, Nat.add_comm 1] at hwentLast
    exact ⟨last, run_cons_eq_some.mpr ⟨next, hnext, hlast⟩, hwentLast⟩

/-- From the first record on `seq` yields the records of the map, one at each step that is
safe, and ends behind the last one. -/
def Iterates (hashFun : Key → UInt32) (db : HashDb) (map : Map) : Prop :=
  ∃ (reader : Reader) (order : Map), Reader.first hashFun db = some reader ∧ order.Perm map ∧
    ∀ steps, Along (Reader.next hashFun) Reader.Safe reader (List.replicate steps ()) →
      ∃ last, run (Reader.next hashFun) reader (List.replicate steps ()) = some last ∧
        last.seen = order.take (1 + steps) ∧ (last.locn = none ↔ order.length ≤ steps)

theorem Attached.iterates (hdb : Attached hashFun db chains map) (hopen : db.isOpen = true)
    (hfirst : firstFits db = true) : Iterates hashFun db map := by
  obtain ⟨reader, hreader, hwent⟩ := hdb.first hopen hfirst
  refine ⟨reader, inOrder db chains, hreader, hdb.layout.perm, fun steps hsafe => ?_⟩
  obtain ⟨last, hlast, hwentLast⟩ := hwent.run hsafe
  refine ⟨last, hlast, hwentLast.seen, hwentLast.exhausted.trans ?_⟩
  omega

/-- As long as behind the records of a block there is a size of 0, and the first record
and those that are carried over a flush of the cache fit the arrays for them, iteration
yields all records, each of them once, and ends. -/
theorem iteration_complete (hashFun : Key → UInt32) {bucketSize dpow : Nat}
    (hsize : bucketSize < 2 ^ 64) (hdegree : dpow < 31) {calls : List Call}
    (hcalls : Along (step hashFun) (fun system call => Fitting system call ∧
      Roomy hashFun system call) (start bucketSize dpow) calls)
    {final : System} (hrun : run (step hashFun) (start bucketSize dpow) calls = some final)
    (hopen : final.db.isOpen = true) (hfirst : firstFits final.db = true) :
    (final.map.map Prod.fst).Nodup ∧
    ∃ (reader : Reader) (order : Map),
      Reader.first hashFun final.db = some reader ∧ order.Perm final.map ∧
      ∀ steps, Along (Reader.next hashFun) Reader.Safe reader (List.replicate steps ()) →
        ∃ last, run (Reader.next hashFun) reader (List.replicate steps ()) = some last ∧
          last.seen = order.take (1 + steps) ∧ (last.locn = none ↔ order.length ≤ steps) := by
  obtain ⟨other, hother, hinv⟩ := run_along
    (fun _ _ hallowed hinv => Inv.step hallowed hinv) hcalls (start_inv hsize hdegree)
  rw [← Option.some.inj (hrun.symm.trans hother)] at hinv
  obtain ⟨chains, ⟨-, hdb⟩ | hdb⟩ := hinv
  · exact ⟨hdb.layout.distinct, hdb.iterates hopen hfirst⟩
  · rw [hdb.isOpen] at hopen
    cases hopen

theorem iteration_complete_three : ∃ (reader : Reader) (order : Map),
    ((run (step HashDb.sdbHashFun) (start 64 1) [.insert [1] [2], .insert [2] [], .insert [3] [],
      .del [1]]).bind fun final => Reader.first HashDb.sdbHashFun final.db) = some reader ∧
    order.Perm [([3], []), ([2], [])] ∧
    ∃ last, run (Reader.next HashDb.sdbHashFun) reader (List.replicate 2 ()) = some last ∧
      last.seen = order.take 3 ∧ last.locn = none := by
  have hends : (run (step HashDb.sdbHashFun) (start 64 1) [.insert [1] [2], .insert [2] [],
      .insert [3] [], .del [1]]).isSome = true := by decide +kernel
  have hchecks : ((run (step HashDb.sdbHashFun) (start 64 1) [.insert [1] [2], .insert [2] [],
      .insert [3] [], .del [1]]).elim false fun final => final.db.isOpen && firstFits final.db &&
        decide (final.map = [([3], []), ([2], [])]) &&
        (Reader.first HashDb.sdbHashFun final.db).elim false fun reader =>
          decide (Along (Reader.next HashDb.sdbHashFun) Reader.Safe reader
            (List.replicate 2 ()))) = true := by decide +kernel
  obtain ⟨final, hfinal⟩ := Option.isSome_iff_exists.mp hends
  rw [hfinal] at hchecks
  simp only [Option.elim_some, Bool.and_eq_true, decide_eq_true_eq] at hchecks
  obtain ⟨⟨⟨hopen, hfirst⟩, hmap⟩, hsafe⟩ := hchecks
  obtain ⟨-, reader, order, hreader, hperm, hwalk⟩ := iteration_complete HashDb.sdbHashFun
    (by decide) (by decide) (by decide +kernel) hfinal hopen hfirst
  rw [hreader] at hsafe
  obtain ⟨last, hlast, hseen, hexhausted⟩ := hwalk 2 (of_decide_eq_true hsafe)
  rw [hmap] at hperm
  refine ⟨reader, order, ?_, hperm, last, hlast, hseen, hexhausted.mpr (Nat.le_of_eq hperm.length_eq)⟩
  rw [hfinal]
  exact hreader

/-- Behind a record that is shorter than a deleted one, the bytes of the deleted one are
taken for a record. -/
theorem iteration_reads_remnant : ∃ final,
    run (step HashDb.sdbHashFun) (start 64 0) [.insert [1] ([1] ++ List.replicate 15 0 ++ [7]),
      .del [1], .insert [2] []] = some final ∧
    Along (step HashDb.sdbHashFun) (fun system call => Fitting system call ∧
      Roomy HashDb.sdbHashFun system call) (start 64 0) [.insert [1] ([1] ++ List.replicate 15 0 ++ [7]),
      .del [1], .insert [2] []] ∧
    final.map = [([2], [])] ∧
    ((Reader.first HashDb.sdbHashFun final.db).bind fun reader =>
      (Reader.next HashDb.sdbHashFun reader ()).map Reader.seen) =
      some [([2], []), ([7], [])] := by
  have hends : (run (step HashDb.sdbHashFun) (start 64 0)
      [.insert [1] ([1] ++ List.replicate 15 0 ++ [7]), .del [1], .insert [2] []]).isSome = true := by
    decide +kernel
  refine ⟨_, (Option.some_get hends).symm, ?_⟩
  decide +kernel +revert

end Libsax.Db
