import Libsax.Db.HashDbFrame

/-! Where an insertion writes. A record is compared with the room of a block only if
the bucket has a block already, and then by an unsigned difference. -/
namespace Libsax.Db

open Libsax.Lib

/-- Nothing of a database has changed: at most some blocks were loaded. -/
structure Unchanged (db next : HashDb) : Prop where
  header : next.sfh = db.sfh
  directory : next.bucketAddr = db.bucketAddr
  file : next.file = db.file
  blocks : ∀ i, next.blocks i = db.blocks i

def HashDb.texts (db : HashDb) (idx : Nat) : List (Option (List UInt8)) :=
  (db.entry idx).map BucketChain.str

/-- The record was written to the place `p` of the block `depth` of a bucket, inside
its data area, and nothing else of any block was written. -/
structure PutInside (db next : HashDb) (idx depth p : Nat) (key : Key) (value : Value) :
    Prop where
  inside : p + (record key value).length ≤ BucketChain.blockSize db.sfh.bucketSize
  /-- a block that was not there yet starts as zeros -/
  block : ∃ fresh old str,
    (fresh = [] ∨ fresh = [some (List.replicate (BucketChain.blockSize db.sfh.bucketSize) 0)]) ∧
    (db.texts idx ++ fresh)[depth]? = some (some old) ∧
    old.length = BucketChain.blockSize db.sfh.bucketSize ∧
    poke old p (record key value) = some str ∧
    next.texts idx = (db.texts idx ++ fresh).set depth (some str)
  others : ∀ i, i ≠ idx → next.entry i = db.entry i

/-- The database as an insertion finds it after its own `flushCache_`. -/
def HashDb.kept (db : HashDb) : HashDb := if db.isOpen then db.flushCache else db

/-- The insertion refuses and changes nothing, or it puts the record inside the
data area of one block. -/
def Contained (hashFun : Key → UInt32) (db : HashDb) (key : Key) (value : Value) : Prop :=
  (∃ next, HashDb.insert hashFun db key value = some (next, false) ∧ Unchanged db.kept next) ∨
  ∃ looked next depth p, HashDb.insert hashFun db key value = some (next, true) ∧
    Unchanged db.kept looked ∧
    PutInside looked next (looked.index hashFun key) depth p key value

/-- Where the records of the last block of a bucket end; the inner `none` is a
bucket without blocks. -/
def HashDb.lastEnd (db : HashDb) (idx : Nat) : Option (Option Nat) :=
  match db.blocks idx with
  | none => none
  | some chain =>
    match chain.getLast? with
    | none => some none
    | some last =>
      (last.str.bind fun str => endOf str last.num.toNatClampNeg 0).map some

/-- The record is smaller than a block by as much as the check of the room supposes,
or it fits one and does not come behind another record. -/
def fitsBehind (bucketSize ksize vsize : Nat) : Option Nat → Bool
  | none => decide (28 + ksize + vsize ≤ bucketSize)
  | some p =>
    decide (36 + ksize + vsize ≤ bucketSize) ||
      decide (28 + ksize + vsize ≤ bucketSize) &&
        (decide (p = 0) || decide (p > HashDb.lastPlace bucketSize ksize vsize))

/-- The database is closed, the key is there, or the record fits. -/
def fitsBlock (hashFun : Key → UInt32) (db : HashDb) (key : Key) (value : Value) : Bool :=
  !db.isOpen ||
  match HashDb.search hashFun db key with
  | none => false
  | some (_, true) => true
  | some (_, false) =>
    match db.flushCache.lastEnd (db.index hashFun key) with
    | none => false
    | some last => fitsBehind db.sfh.bucketSize key.length value.length last

variable {hashFun : Key → UInt32} {db next : HashDb} {bucketSize : Nat} {file : ByteStore}
  {chain behind : Chain} {idx depth : Nat} {key : Key} {value : Value}

theorem Unchanged.refl (db : HashDb) : Unchanged db db := ⟨rfl, rfl, rfl, fun _ => rfl⟩

def Loaded (chain : Chain) : Prop := ∀ bucket ∈ chain.head?, bucket.isLoaded = true

private theorem loaded_readFile (bucket : BucketChain) (behind : Chain) :
    Loaded (bucket.readFile bucketSize file behind) := by
  unfold BucketChain.readFile
  split_ifs with hloaded
  · rintro other ⟨⟩
    exact hloaded
  · intro other hother
    cases hother
    rfl

private theorem loaded_loadNext (chain : Chain) :
    Loaded (BucketChain.loadNext bucketSize file chain).1 := by
  cases chain with
  | nil => exact fun _ hother => nomatch hother
  | cons following rest =>
    simp only [BucketChain.loadNext]
    split_ifs with hloaded
    · rintro other ⟨⟩
      exact hloaded
    · exact loaded_readFile following rest

private theorem loadNext_loaded (hchain : Loaded chain) :
    (BucketChain.loadNext bucketSize file chain).1 = chain := by
  cases chain with
  | nil => rfl
  | cons following rest =>
    simp only [BucketChain.loadNext, if_pos (hchain following rfl)]

private theorem loaded_load (db : HashDb) (chain : Chain) : Loaded (db.load chain).2 := by
  unfold HashDb.load
  split
  · exact fun _ hother => nomatch hother
  · split_ifs with hloaded
    · rintro other ⟨⟩
      exact hloaded
    · exact loaded_readFile _ _

private theorem load_loaded (db : HashDb) (hchain : Loaded chain) : (db.load chain).2 = chain := by
  cases chain with
  | nil => rfl
  | cons bucket behind => simp only [HashDb.load, if_pos (hchain bucket rfl)]

private theorem searchChain_loads {fuel : Nat} {walk : Walk} (hchain : Loaded chain)
    (hsearch : HashDb.searchChain bucketSize file key fuel chain = some walk) :
    Loaded walk.chain ∧ walk.chain ≠ [] ∧
    ∀ more, loadChain bucketSize file more walk.chain = loadChain bucketSize file more chain := by
  induction fuel generalizing chain walk with
  | zero => cases hsearch
  | succ fuel ih =>
    cases chain with
    | nil => cases hsearch
    | cons sa behind =>
      have hsa : sa.isLoaded = true := hchain sa rfl
      have hhead : ∀ rest, Loaded (sa :: rest) := by
        rintro rest other ⟨⟩
        exact hsa
      simp only [HashDb.searchChain, Option.bind_eq_bind, Option.bind_eq_some_iff] at hsearch
      obtain ⟨str, -, place, -, hplace⟩ := hsearch
      cases place with
      | found p =>
        cases hplace
        exact ⟨hchain, List.cons_ne_nil _ _, fun _ => rfl⟩
      | past p =>
        simp only at hplace
        split_ifs at hplace with hlast
        · cases hplace
          refine ⟨hhead [], List.cons_ne_nil _ _, fun more => ?_⟩
          cases more with
          | zero => rfl
          | succ more =>
            have hnil := List.isEmpty_iff.mp hlast
            have hstop : (BucketChain.loadNext bucketSize file []).1 = [] := rfl
            simp only [loadChain, hnil, hstop]
        · obtain ⟨rest, hrest, hwalk⟩ := Option.bind_eq_some_iff.mp hplace
          cases hwalk
          obtain ⟨hloaded, -, hsame⟩ := ih (loaded_loadNext behind) hrest
          refine ⟨hhead _, List.cons_ne_nil _ _, fun more => ?_⟩
          cases more with
          | zero => rfl
          | succ more => simp only [loadChain, loadNext_loaded hloaded, hsame]

private theorem blocks_congr (hsfh : next.sfh = db.sfh) (hfile : next.file = db.file)
    (hentry : next.entry idx = db.entry idx) (haddr : next.bucketAddr idx = db.bucketAddr idx) :
    next.blocks idx = db.blocks idx := by
  have henter : next.enter idx = db.enter idx := by
    unfold HashDb.enter
    rw [hentry, haddr]
  unfold HashDb.blocks
  rw [henter, hsfh, hfile]
  unfold HashDb.load
  cases db.enter idx with
  | nil => rfl
  | cons bucket behind =>
    simp only [hsfh, hfile]
    split_ifs <;> rfl

private theorem search_unchanged {found : Bool} {locn : Option Cursor}
    (hsearch : HashDb.search_ hashFun db key = some (next, found, locn)) : Unchanged db next := by
  rcases search_cases hsearch with
    ⟨rfl, -, -, -⟩ | ⟨sa, behind, walk, activeNum, -, henter, hwalk, -, -, rfl⟩
  · exact Unchanged.refl _
  refine ⟨rfl, rfl, rfl, fun i => ?_⟩
  by_cases hsame : i = db.index hashFun key
  · obtain ⟨hloaded, hne, hloads⟩ := searchChain_loads (loaded_load db _) hwalk
    have hentered : HashDb.enter { db with
        activeNum := activeNum
        entry := Function.update db.entry (db.index hashFun key) walk.chain } i = walk.chain := by
      unfold HashDb.enter
      simp only [hsame, Function.update_self]
    unfold HashDb.blocks
    rw [hentered, load_loaded _ hloaded, hsame, henter, hloads]
  · refine blocks_congr rfl rfl ?_ rfl
    simp only [Function.update_of_ne hsame]

private theorem searchChain_missed {fuel : Nat} {walk : Walk}
    (hsearch : HashDb.searchChain bucketSize file key fuel chain = some walk)
    (hmissed : walk.found = false) :
    ∃ front last str, walk.chain = front ++ [last] ∧ walk.locn.depth = front.length ∧
      last.str = some str ∧ scan str key last.num.toNatClampNeg 0 = some (.past walk.locn.p) ∧
      ∀ more, fuel < more → loadChain bucketSize file more chain = some walk.chain := by
  induction fuel generalizing chain walk with
  | zero => cases hsearch
  | succ fuel ih =>
    cases chain with
    | nil => cases hsearch
    | cons sa behind =>
      simp only [HashDb.searchChain, Option.bind_eq_bind, Option.bind_eq_some_iff] at hsearch
      obtain ⟨str, hstr, place, hscan, hplace⟩ := hsearch
      cases place with
      | found p =>
        cases hplace
        cases hmissed
      | past p =>
        simp only at hplace
        split_ifs at hplace with hlast
        · cases hplace
          refine ⟨[], sa, str, rfl, rfl, hstr, hscan, fun more hmore => ?_⟩
          obtain ⟨more, rfl⟩ := Nat.exists_eq_succ_of_ne_zero (Nat.ne_of_gt (Nat.zero_lt_of_lt hmore))
          obtain ⟨more, rfl⟩ := Nat.exists_eq_succ_of_ne_zero (show more ≠ 0 by omega)
          simp only [loadChain, List.isEmpty_iff.mp hlast, Option.map_some]
        · obtain ⟨rest, hrest, hwalk⟩ := Option.bind_eq_some_iff.mp hplace
          cases hwalk
          obtain ⟨front, last, text, hchain, hdepth, htext, hpast, hall⟩ := ih hrest hmissed
          refine ⟨sa :: front, last, text, ?_, ?_, htext, hpast, fun more hmore => ?_⟩
          · simp only [hchain, List.cons_append]
          · simp only [hdepth, List.length_cons]
          · obtain ⟨more, rfl⟩ :=
              Nat.exists_eq_succ_of_ne_zero (Nat.ne_of_gt (Nat.zero_lt_of_lt hmore))
            simp only [loadChain, hall more (by omega), Option.map_some]

private theorem endOf_of_scan {str : List UInt8} {left p q : Nat}
    (hscan : scan str key left p = some (.past q)) :
    endOf str left p = some q ∧ (left = 0 ∧ q = p ∨ p + 16 ≤ q) := by
  induction left generalizing p with
  | zero =>
    cases hscan
    exact ⟨rfl, Or.inl ⟨rfl, rfl⟩⟩
  | succ left ih =>
    simp only [scan, Option.bind_eq_bind, Option.bind_eq_some_iff] at hscan
    obtain ⟨ksz, hksz, vsz, hvsz, hrest⟩ := hscan
    have hfollow : scan str key left (p + 8 + 8 + (ksz + vsz)) = some (.past q) := by
      split_ifs at hrest with hlength
      · exact hrest
      · obtain ⟨stored, -, hrest⟩ := Option.bind_eq_some_iff.mp hrest
        split_ifs at hrest with hsame
        · cases hrest
        · exact hrest
    obtain ⟨hend, hle⟩ := ih hfollow
    refine ⟨?_, Or.inr (by omega)⟩
    simp only [endOf, hksz, hvsz, Option.bind_eq_bind, Option.bind_some, hend]

private theorem poke_of_le {str data : List UInt8} {p : Nat} (hle : p + data.length ≤ str.length) :
    ∃ out, poke str p data = some out := ⟨_, if_pos hle⟩

private theorem le_of_poke {str data out : List UInt8} {p : Nat}
    (hpoke : poke str p data = some out) :
    p + data.length ≤ str.length := by
  unfold poke at hpoke
  split_ifs at hpoke with hle
  exact hle

/-- A place of a block that is in memory, in a database that has at most one more
block than before. -/
structure Site (db added : HashDb) (idx : Nat) (locn : Cursor) : Prop where
  there : ∃ sa old, (added.entry idx)[locn.depth]? = some sa ∧ sa.str = some old
  fresh : ∃ fresh,
    (fresh = [] ∨ fresh = [some (List.replicate (BucketChain.blockSize db.sfh.bucketSize) 0)]) ∧
    added.texts idx = db.texts idx ++ fresh
  sized : Sized db.sfh.bucketSize (added.entry idx)
  others : ∀ i, i ≠ idx → added.entry i = db.entry i

theorem Site.put_iff {added : HashDb} {locn : Cursor} (hsite : Site db added idx locn) (key : Key)
    (value : Value) :
    (∃ next, added.putRecord idx locn key value = some next) ↔
      locn.p + 28 + key.length + value.length ≤ db.sfh.bucketSize := by
  obtain ⟨sa, old, hsa, hold⟩ := hsite.there
  have hlength := hsite.sized.get hsa old hold
  unfold BucketChain.blockSize at hlength
  constructor
  · rintro ⟨next, hput⟩
    obtain ⟨other, str, out, dirtyPageNum, hother, hstr, hpoke, -⟩ := putRecord_cases hput
    cases hsa.symm.trans hother
    cases hold.symm.trans hstr
    have hle := le_of_poke hpoke
    rw [hlength, record_length] at hle
    omega
  · intro hroom
    have hle : locn.p + (record key value).length ≤ old.length := by
      rw [hlength, record_length]
      omega
    obtain ⟨str, hpoke⟩ := poke_of_le hle
    obtain ⟨dirtyPageNum, hdirty⟩ := setDirty_eq added sa
    simp only [HashDb.putRecord, hsa, hold, hpoke, hdirty, Option.bind_eq_bind, Option.bind_some]
    exact ⟨_, rfl⟩

theorem Site.inside {added : HashDb} {locn : Cursor} (hsite : Site db added idx locn)
    (hput : added.putRecord idx locn key value = some next) :
    PutInside db next idx locn.depth locn.p key value := by
  obtain ⟨sa, old, str, dirtyPageNum, hsa, hold, hpoke, rfl⟩ := putRecord_cases hput
  obtain ⟨fresh, hfresh, htexts⟩ := hsite.fresh
  have hlength := hsite.sized.get hsa old hold
  refine ⟨?_, ⟨fresh, old, str, hfresh, ?_, hlength, hpoke, ?_⟩, fun i hi => ?_⟩
  · rw [← hlength]
    exact le_of_poke hpoke
  · rw [← htexts]
    unfold HashDb.texts
    rw [List.getElem?_map, hsa, Option.map_some, hold]
  · rw [← htexts]
    unfold HashDb.texts
    simp only [Function.update_self, List.map_set]
  · simp only [Function.update_of_ne hi]
    exact hsite.others i hi

private theorem sized_zeros {fresh : BucketChain}
    (hfresh : fresh.str = some (List.replicate (BucketChain.blockSize bucketSize) 0)) :
    fresh.Sized bucketSize := BucketChain.sized_of_str hfresh List.length_replicate

private theorem addRecord_first (key : Key) (value : Value) (hentry : db.entry idx = [])
    (haddr : db.bucketAddr idx = 0) :
    ∃ added, db.addRecord idx none key value = added.putRecord idx ⟨0, 0⟩ key value ∧
      Site db added idx ⟨0, 0⟩ := by
  have hfirst : ∃ (added : HashDb) (fresh : BucketChain),
      db.addRecord idx none key value = added.putRecord idx ⟨0, 0⟩ key value ∧
      fresh.str = some (List.replicate (BucketChain.blockSize db.sfh.bucketSize) 0) ∧
      added.entry = Function.update db.entry idx [fresh] := by
    unfold HashDb.addRecord
    simp only [if_pos haddr]
    exact ⟨_, db.allocateBlock.2, rfl, rfl, rfl⟩
  obtain ⟨added, fresh, hadd, hstr, hadded⟩ := hfirst
  have hchain : added.entry idx = [fresh] := by rw [hadded, Function.update_self]
  refine ⟨added, hadd, ⟨fresh, _, ?_, hstr⟩, ⟨_, Or.inr rfl, ?_⟩, ?_, fun i hi => ?_⟩
  · rw [hchain]
    rfl
  · unfold HashDb.texts
    rw [hchain, hentry, List.map_cons, List.map_nil, hstr]
    rfl
  · rw [hchain]
    exact sized_cons.mpr ⟨sized_zeros hstr, sized_nil⟩
  · rw [hadded, Function.update_of_ne hi]

private theorem addRecord_behind (key : Key) (value : Value) (p : Nat) {last : BucketChain}
    {front : Chain} {str : List UInt8}
    (hsized : Sized db.sfh.bucketSize (db.entry idx)) (hentry : db.entry idx = front ++ [last])
    (hstr : last.str = some str) :
    ∃ added locn, db.addRecord idx (some ⟨front.length, p⟩) key value =
        added.putRecord idx locn key value ∧
      Site db added idx locn ∧
      locn.p = if p > HashDb.lastPlace db.sfh.bucketSize key.length value.length then 0 else p := by
  have hget : (db.entry idx)[front.length]? = some last := by simp [hentry]
  unfold HashDb.addRecord
  by_cases hfull : p > HashDb.lastPlace db.sfh.bucketSize key.length value.length
  · have hnext : ∃ (added : HashDb) (fresh : BucketChain),
        db.nextBlock idx front.length = some added ∧
        fresh.str = some (List.replicate (BucketChain.blockSize db.sfh.bucketSize) 0) ∧
        added.entry = Function.update db.entry idx
          (front ++ [{ last with isDirty := true }] ++ [fresh]) := by
      obtain ⟨dirtyPageNum, hdirty⟩ := setDirty_eq db last
      have hlast : ((db.entry idx).drop (front.length + 1)).isEmpty = true := by simp [hentry]
      have hset : ∀ other, (db.entry idx).set front.length other = front ++ [other] := by
        intro other
        simp [hentry]
      simp only [HashDb.nextBlock, hget, hdirty, Option.bind_eq_bind, Option.bind_some,
        if_pos hlast]
      refine ⟨_, (HashDb.allocateBlock { db with dirtyPageNum := dirtyPageNum }).2, rfl, rfl, ?_⟩
      exact congrArg (fun chain => Function.update db.entry idx (chain ++ [_])) (hset _)
    obtain ⟨added, fresh, hblock, hfresh, hadded⟩ := hnext
    have hchain : added.entry idx = front ++ [{ last with isDirty := true }] ++ [fresh] := by
      rw [hadded, Function.update_self]
    simp only [if_pos hfull, hblock, Option.bind_eq_bind, Option.bind_some]
    refine ⟨added, ⟨front.length + 1, 0⟩, rfl, ⟨⟨fresh, _, ?_, hfresh⟩, ⟨_, Or.inr rfl, ?_⟩, ?_,
      fun i hi => ?_⟩, rfl⟩
    · rw [hchain]
      simp
    · unfold HashDb.texts
      rw [hchain, hentry]
      simp [hfresh]
    · have hfront := hsized.take front.length
      have hmarked : BucketChain.Sized db.sfh.bucketSize { last with isDirty := true } :=
        (hsized.get hget).congr rfl
      rw [hentry, List.take_left] at hfront
      rw [hchain]
      exact (hfront.append (sized_cons.mpr ⟨hmarked, sized_nil⟩)).append
        (sized_cons.mpr ⟨sized_zeros hfresh, sized_nil⟩)
    · rw [hadded, Function.update_of_ne hi]
  · simp only [if_neg hfull]
    refine ⟨db, ⟨front.length, p⟩, rfl, ⟨⟨last, str, hget, hstr⟩, ⟨[], Or.inl rfl, ?_⟩, hsized,
      fun _ _ => rfl⟩, rfl⟩
    exact (List.append_nil _).symm

private theorem fitsBehind_iff {ksize vsize p : Nat} (hsize : bucketSize < 2 ^ 64)
    (hp : p = 0 ∨ 16 ≤ p) :
    fitsBehind bucketSize ksize vsize (some p) = true ↔
      (if p > HashDb.lastPlace bucketSize ksize vsize then 0 else p) + 28 + ksize + vsize ≤
        bucketSize := by
  simp only [fitsBehind, Bool.or_eq_true, Bool.and_eq_true, decide_eq_true_eq]
  split_ifs with hfull
  · omega
  · by_cases hroom : 36 + ksize + vsize ≤ bucketSize
    · rw [lastPlace_eq hroom hsize] at hfull
      omega
    · omega

private theorem insert_eq (hopen : db.isOpen = true) :
    HashDb.insert hashFun db key value =
      (HashDb.search_ hashFun db.flushCache key).bind fun out =>
        if out.2.1 then some (out.1, false)
        else (out.1.addRecord (out.1.index hashFun key) out.2.2 key value).map (·, true) := by
  unfold HashDb.insert
  rw [if_neg (not_closed hopen)]
  refine congrArg (Option.bind (HashDb.search_ hashFun db.flushCache key)) (funext fun out => ?_)
  obtain ⟨searched, found, locn⟩ := out
  simp only
  split_ifs with hfound
  · rfl
  · exact Option.map_eq_bind.symm

theorem Framed.site (hdb : Framed db) {looked : HashDb} {locn : Option Cursor}
    (hopen : db.isOpen = true)
    (hsearch : HashDb.search_ hashFun db key = some (looked, false, locn)) (value : Value) :
    ∃ added place last,
      looked.addRecord (looked.index hashFun key) locn key value =
        added.putRecord (looked.index hashFun key) place key value ∧
      Site looked added (looked.index hashFun key) place ∧ looked.sfh = db.sfh ∧
      db.lastEnd (db.index hashFun key) = some last ∧
      (fitsBehind db.sfh.bucketSize key.length value.length last = true ↔
        place.p + 28 + key.length + value.length ≤ db.sfh.bucketSize) := by
  have hlooked := hdb.search_ hsearch
  rcases search_cases hsearch with
    ⟨rfl, -, rfl, hnil⟩ | ⟨sa, behind, walk, activeNum, -, henter, hwalk, hmissed, rfl, rfl⟩
  · obtain ⟨hentry, haddr⟩ := enter_eq_nil.mp (hnil hopen)
    obtain ⟨added, hadd, hsite⟩ := addRecord_first key value hentry haddr
    have hlast : looked.lastEnd (looked.index hashFun key) = some none := by
      have hblocks : looked.blocks (looked.index hashFun key) = some [] := by
        unfold HashDb.blocks
        rw [hnil hopen]
        rfl
      unfold HashDb.lastEnd
      rw [hblocks]
      rfl
    refine ⟨added, _, none, hadd, hsite, rfl, hlast, ?_⟩
    unfold fitsBehind
    rw [decide_eq_true_eq, Nat.zero_add]
  · obtain ⟨front, last, str, hchain, hdepth, hstr, hscan, hloads⟩ :=
      searchChain_missed hwalk hmissed.symm
    obtain ⟨hend, hp⟩ := endOf_of_scan hscan
    have hlast : db.lastEnd (db.index hashFun key) = some (some walk.locn.p) := by
      have hblocks : db.blocks (db.index hashFun key) = some (front ++ [last]) := by
        unfold HashDb.blocks
        rw [henter, hloads _ (Nat.lt_succ_self _), hchain]
      unfold HashDb.lastEnd
      rw [hblocks]
      simp only [List.getLast?_concat, hstr, Option.bind_some, hend, Option.map_some]
    have hlocn : walk.locn = ⟨front.length, walk.locn.p⟩ := by rw [← hdepth]
    have hentry : Function.update db.entry (db.index hashFun key) walk.chain
        (db.index hashFun key) = front ++ [last] := by
      rw [Function.update_self, hchain]
    obtain ⟨added, place, hadd, hsite, hplace⟩ := addRecord_behind key value walk.locn.p
      (hlooked.sized (db.index hashFun key)) hentry hstr
    rw [← hlocn] at hadd
    refine ⟨added, place, some walk.locn.p, hadd, hsite, rfl, hlast, ?_⟩
    rw [hplace]
    exact fitsBehind_iff hdb.size (by omega)

/-- Every insertion into a database with proper buffers: it stays inside a block if
and only if the record fits. -/
theorem Framed.contained_iff (hdb : Framed db) (key : Key) (value : Value) :
    Contained hashFun db key value ↔ fitsBlock hashFun db key value = true := by
  by_cases hopen : db.isOpen = true
  · have hkept : db.kept = db.flushCache := if_pos hopen
    unfold Contained fitsBlock HashDb.search
    rw [hkept, hopen, insert_eq hopen]
    cases hsearch : HashDb.search_ hashFun db.flushCache key with
    | none => simp
    | some out =>
      obtain ⟨looked, found, locn⟩ := out
      have hsame := search_unchanged hsearch
      cases found with
      | true =>
        refine iff_of_true (Or.inl ⟨looked, rfl, hsame⟩) rfl
      | false =>
        obtain ⟨added, place, last, hadd, hsite, hlookedSfh, hlast, hfits⟩ :=
          hdb.flushCache.site ((flushCache_isOpen db).trans hopen) hsearch value
        have hput := hsite.put_iff key value
        rw [flushCache_index] at hlast
        rw [flushCache_sfh] at hfits hlookedSfh
        rw [hlookedSfh, ← hfits] at hput
        simp only [Bool.not_true, Bool.false_or, Option.bind_eq_bind, Option.bind_some, hadd, hlast,
          Bool.false_eq_true, if_false, ← hput]
        constructor
        · rintro (⟨next, hinsert, -⟩ | ⟨-, next, -, -, hinsert, -⟩)
          · obtain ⟨put, -, hnext⟩ := Option.map_eq_some_iff.mp hinsert
            cases hnext
          · obtain ⟨put, hput, -⟩ := Option.map_eq_some_iff.mp hinsert
            exact ⟨put, hput⟩
        · rintro ⟨next, hput⟩
          refine Or.inr ⟨looked, next, place.depth, place.p, ?_, hsame, hsite.inside hput⟩
          rw [hput]
          rfl
  · have hclosed : db.isOpen = false := Bool.eq_false_iff.mpr hopen
    have hrefuse : HashDb.insert hashFun db key value = some (db, false) := by
      unfold HashDb.insert
      rw [hclosed]
      rfl
    have hkept : db.kept = db := if_neg hopen
    have hfits : fitsBlock hashFun db key value = true := by
      unfold fitsBlock
      rw [hclosed]
      rfl
    refine iff_of_true (Or.inl ⟨db, hrefuse, ?_⟩) hfits
    rw [hkept]
    exact Unchanged.refl db

/-- In every run, whatever was called and however it was cached, the next insertion
stays inside one block if and only if the record fits. -/
theorem insert_contained_iff (hashFun : Key → UInt32) {bucketSize dpow : Nat}
    (hsize : bucketSize < 2 ^ 64) {deeds : List Deed}
    (hrun : run (perform hashFun) (start bucketSize dpow).db deeds = some db) (key : Key)
    (value : Value) :
    Contained hashFun db key value ↔ fitsBlock hashFun db key value = true :=
  (framed_run hsize hrun).contained_iff key value

/-- Two records that share a block. -/
theorem insert_contained_iff_two : ∃ db,
    run (perform HashDb.sdbHashFun) (start 64 0).db
      [.request (.call (.insert [1] [])), .first, .request (.call .flush)] = some db ∧
    Contained HashDb.sdbHashFun db [2] [3] := by
  have hends : (run (perform HashDb.sdbHashFun) (start 64 0).db
      [.request (.call (.insert [1] [])), .first, .request (.call .flush)]).isSome = true := by
    decide +kernel
  refine ⟨_, (Option.some_get hends).symm, ?_⟩
  refine (insert_contained_iff HashDb.sdbHashFun (by decide) (Option.some_get hends).symm
    [2] [3]).mpr ?_
  decide +kernel +revert

/-- A first record that is longer than a block is written beyond it. -/
theorem insert_escapes :
    ¬Contained HashDb.sdbHashFun (start 64 0).db [1] (List.replicate 64 0) := by
  have hnone : (HashDb.insert HashDb.sdbHashFun (start 64 0).db [1]
      (List.replicate 64 0)).isNone = true := by decide +kernel
  rintro (⟨next, hinsert, -⟩ | ⟨looked, next, depth, p, hinsert, -⟩)
  · rw [hinsert] at hnone
    cases hnone
  · rw [hinsert] at hnone
    cases hnone

private theorem run_perform {system final : System} {requests : List Request}
    (hrun : run (stepRequest hashFun) system requests = some final) :
    run (perform hashFun) system.db (requests.map Deed.request) = some final.db := by
  induction requests generalizing system with
  | nil =>
    cases hrun
    rfl
  | cons request rest ih =>
    obtain ⟨next, hstep, hrest⟩ := run_cons_eq_some.mp hrun
    obtain ⟨out, hexec, rfl⟩ := Option.map_eq_some_iff.mp hstep
    refine run_cons_eq_some.mpr ⟨out.1, ?_, ih hrest⟩
    simp only [perform, hexec, Option.map_some]

theorem Framed.fitsBlock_of_search (hdb : Framed db)
    (hsearch : (HashDb.search hashFun db key).isSome = true)
    (hfit : 36 + key.length + value.length ≤ db.sfh.bucketSize) :
    fitsBlock hashFun db key value = true := by
  by_cases hopen : db.isOpen = true
  · obtain ⟨⟨searched, found⟩, hlook⟩ := Option.isSome_iff_exists.mp hsearch
    unfold fitsBlock
    rw [hlook]
    cases found with
    | true => exact Bool.or_true _
    | false =>
      obtain ⟨⟨looked, found, locn⟩, hlooked, hsame⟩ := Option.bind_eq_some_iff.mp hlook
      cases hsame
      obtain ⟨added, place, last, -, -, -, hlast, -⟩ :=
        hdb.flushCache.site ((flushCache_isOpen db).trans hopen) hlooked value
      rw [flushCache_index] at hlast
      have hfits : fitsBehind db.sfh.bucketSize key.length value.length last = true := by
        cases last with
        | none => exact decide_eq_true (by omega)
        | some p =>
          simp only [fitsBehind, decide_eq_true hfit, Bool.true_or]
      simp only [hlast, hfits, Bool.or_true]
  · unfold fitsBlock
    rw [Bool.eq_false_iff.mpr hopen]
    rfl

private theorem fitting_contained (hashFun : Key → UInt32) {bucketSize dpow : Nat}
    (hsize : bucketSize < 2 ^ 64) (hdegree : dpow < 31) {requests : List Request}
    (hrequests : Along (stepRequest hashFun) (fun system request => FittingRequest system request ∧
      SameSize hashFun system request) (start bucketSize dpow) requests) :
    ∃ final, run (stepRequest hashFun) (start bucketSize dpow) requests = some final ∧
      ∀ key value, 36 + key.length + value.length ≤ final.db.sfh.bucketSize →
        Contained hashFun final.db key value := by
  obtain ⟨final, hrun, hinv⟩ := run_along
    (fun _ _ hallowed hinv => Inv.stepRequest hallowed hinv) hrequests (start_inv hsize hdegree)
  refine ⟨final, hrun, fun key value hfit => ?_⟩
  have hdb := framed_run hsize (run_perform hrun)
  obtain ⟨next, hanswer⟩ := hinv.sound.answers (.search key) trivial trivial
  refine (hdb.contained_iff key value).mpr (hdb.fitsBlock_of_search ?_ hfit)
  obtain ⟨out, hsearch, -⟩ := Option.map_eq_some_iff.mp hanswer
  rw [hsearch]
  rfl

end Libsax.Db
