import Libsax.Db.HashDbRequests

/-! The buffers of the hash database: whatever is called, and however it ends, each
block in memory has a buffer of the size of a data area. -/
namespace Libsax.Db

open Libsax.Lib

variable {hashFun : Key → UInt32} {db next : HashDb} {bucketSize : Nat} {file : ByteStore}
  {chain behind : Chain} {bucket : BucketChain} {idx depth : Nat}

/-- A block that is in memory has all of its data area there. -/
def BucketChain.Sized (bucketSize : Nat) (bucket : BucketChain) : Prop :=
  ∀ str, bucket.str = some str → str.length = BucketChain.blockSize bucketSize

theorem BucketChain.sized_of_str {str : List UInt8} (hstr : bucket.str = some str)
    (hlength : str.length = BucketChain.blockSize bucketSize) : bucket.Sized bucketSize := by
  intro other hother
  rw [← hlength, Option.some.inj (hstr.symm.trans hother)]

theorem BucketChain.Sized.congr {other : BucketChain} (hstr : other.str = bucket.str)
    (hbucket : bucket.Sized bucketSize) : other.Sized bucketSize :=
  fun str hother => hbucket str (hstr.symm.trans hother)

def Sized (bucketSize : Nat) (chain : Chain) : Prop :=
  ∀ bucket ∈ chain, bucket.Sized bucketSize

theorem sized_nil : Sized bucketSize [] := List.forall_mem_nil _

@[simp] theorem sized_cons :
    Sized bucketSize (bucket :: behind) ↔ bucket.Sized bucketSize ∧ Sized bucketSize behind :=
  List.forall_mem_cons

theorem Sized.append (hchain : Sized bucketSize chain) (hbehind : Sized bucketSize behind) :
    Sized bucketSize (chain ++ behind) :=
  fun other hother => (List.mem_append.mp hother).elim (hchain other) (hbehind other)

theorem Sized.take (hchain : Sized bucketSize chain) (depth : Nat) :
    Sized bucketSize (chain.take depth) :=
  fun other hother => hchain other (List.mem_of_mem_take hother)

theorem Sized.drop (hchain : Sized bucketSize chain) (depth : Nat) :
    Sized bucketSize (chain.drop depth) :=
  fun other hother => hchain other (List.mem_of_mem_drop hother)

theorem Sized.set (hchain : Sized bucketSize chain) (hbucket : bucket.Sized bucketSize)
    (depth : Nat) : Sized bucketSize (chain.set depth bucket) := by
  intro other hother
  rcases List.mem_or_eq_of_mem_set hother with hmem | rfl
  · exact hchain other hmem
  · exact hbucket

theorem Sized.get (hchain : Sized bucketSize chain) (hget : chain[depth]? = some bucket) :
    bucket.Sized bucketSize := hchain bucket (List.mem_of_getElem? hget)

private theorem sized_create (fpos : Nat) : (BucketChain.create fpos).Sized bucketSize :=
  fun _ hstr => nomatch hstr

private theorem sized_readFile (hchain : Sized bucketSize (bucket :: behind)) :
    Sized bucketSize (bucket.readFile bucketSize file behind) := by
  obtain ⟨-, hbehind⟩ := sized_cons.mp hchain
  unfold BucketChain.readFile
  split_ifs with hloaded
  · exact hchain
  simp only [sized_cons]
  refine ⟨BucketChain.sized_of_str rfl ByteStore.read_length, ?_⟩
  generalize Bytes.decode (file.read (bucket.fpos + 4 + BucketChain.blockSize bucketSize) 8) = nextfpos
  split_ifs with hlast
  · exact hbehind
  · cases behind with
    | nil => exact sized_cons.mpr ⟨sized_create _, sized_nil⟩
    | cons following rest =>
      obtain ⟨hfollowing, hrest⟩ := sized_cons.mp hbehind
      exact sized_cons.mpr ⟨hfollowing.congr rfl, hrest⟩

private theorem sized_loadNext (hchain : Sized bucketSize chain) :
    Sized bucketSize (BucketChain.loadNext bucketSize file chain).1 := by
  cases chain with
  | nil => exact sized_nil
  | cons following rest =>
    simp only [BucketChain.loadNext]
    split_ifs with hloaded
    · exact hchain
    · exact sized_readFile hchain

@[simp] private theorem write_str (file : ByteStore) (bucket : BucketChain) (behind : Chain) :
    (bucket.write file behind).2.1.str = bucket.str := by
  unfold BucketChain.write
  split <;> rfl

private theorem sized_evict (hbucket : bucket.Sized bucketSize) :
    (HashDb.evict bucket).Sized bucketSize := by
  unfold HashDb.evict
  split_ifs with hunload
  · exact fun _ hstr => nomatch hstr
  · exact hbucket

private theorem sized_poke {str out data : List UInt8} {p : Nat} (hbucket : bucket.Sized bucketSize)
    (hstr : bucket.str = some str) (hpoke : poke str p data = some out) :
    out.length = BucketChain.blockSize bucketSize :=
  (poke_length hpoke).trans (hbucket str hstr)

/-- Every buffer is as large as a data area; a closed database has none. -/
structure Framed (db : HashDb) : Prop where
  size : db.sfh.bucketSize < 2 ^ 64
  sized : ∀ i, Sized db.sfh.bucketSize (db.entry i)
  closed : db.isOpen = false → ∀ i, db.enter i = []

theorem Framed.of_open (hdb : Framed db) (hopen : next.isOpen = true)
    (hsize : next.sfh.bucketSize = db.sfh.bucketSize)
    (hentry : ∀ i, Sized db.sfh.bucketSize (next.entry i)) : Framed next where
  size := hsize ▸ hdb.size
  sized := fun i => hsize ▸ hentry i
  closed := fun hclosed => nomatch hopen.symm.trans hclosed

theorem Framed.enter (hdb : Framed db) (idx : Nat) :
    Sized db.sfh.bucketSize (db.enter idx) := by
  have hentry := hdb.sized idx
  unfold HashDb.enter
  split
  · split_ifs with haddr
    · exact sized_nil
    · exact sized_cons.mpr ⟨sized_create _, sized_nil⟩
  · exact hentry

private theorem load_keeps (db : HashDb) (chain : Chain) :
    ∃ activeNum, (db.load chain).1 = { db with activeNum := activeNum } := by
  unfold HashDb.load
  split
  · exact ⟨db.activeNum, rfl⟩
  · split_ifs with hloaded
    · exact ⟨db.activeNum, rfl⟩
    · exact ⟨db.activeNum + 1, rfl⟩

private theorem sized_load (hchain : Sized db.sfh.bucketSize chain) :
    Sized db.sfh.bucketSize (db.load chain).2 := by
  unfold HashDb.load
  split
  · exact sized_nil
  · split_ifs with hloaded
    · exact hchain
    · exact sized_readFile hchain

theorem enter_eq_nil : db.enter idx = [] ↔ db.entry idx = [] ∧ db.bucketAddr idx = 0 := by
  unfold HashDb.enter
  split
  · next hnil => split_ifs with haddr <;> simp [hnil, haddr]
  · next hne => exact ⟨fun hnil => absurd hnil hne, fun hnil => absurd hnil.1 hne⟩

theorem Framed.put (hdb : Framed db) (hopen : next.isOpen = true)
    (hsize : next.sfh.bucketSize = db.sfh.bucketSize)
    (hentry : next.entry = Function.update db.entry idx chain)
    (hchain : Sized db.sfh.bucketSize chain) : Framed next := by
  refine hdb.of_open hopen hsize fun i => ?_
  rw [hentry]
  by_cases hsame : i = idx
  · rw [hsame, Function.update_self]
    exact hchain
  · rw [Function.update_of_ne hsame]
    exact hdb.sized i

theorem Framed.writeBlock (hdb : Framed db) (block : Nat × Nat) : Framed (db.writeBlock block) := by
  unfold HashDb.writeBlock
  split
  · exact hdb
  · next bucket behind hdrop =>
    have hmem : bucket ∈ db.entry block.1 :=
      List.mem_of_mem_drop (hdrop ▸ List.mem_cons_self)
    have hwritten := (hdb.sized _ bucket hmem).congr (write_str db.file bucket behind)
    have hset := (hdb.sized block.1).set hwritten block.2
    refine ⟨hdb.size, fun i => ?_, fun hclosed i => ?_⟩
    · by_cases hsame : i = block.1
      · rw [hsame]
        simp only [Function.update_self]
        exact hset
      · simp only [Function.update_of_ne hsame]
        exact hdb.sized i
    · rw [(enter_eq_nil.mp (hdb.closed hclosed block.1)).1] at hmem
      cases hmem

private theorem writeBlock_keeps (db : HashDb) (block : Nat × Nat) :
    ∃ file entry dirtyPageNum, db.writeBlock block =
      { db with file := file, entry := entry, dirtyPageNum := dirtyPageNum } := by
  unfold HashDb.writeBlock
  split
  · exact ⟨db.file, db.entry, db.dirtyPageNum, rfl⟩
  · exact ⟨_, _, _, rfl⟩

private theorem commit_keeps (db : HashDb) :
    ∃ file entry dirtyPageNum, db.commit =
      { db with file := file, entry := entry, dirtyPageNum := dirtyPageNum } := by
  have hall : ∀ (items : List (Nat × (Nat × Nat))) (db : HashDb),
      ∃ file entry dirtyPageNum, items.foldl (fun db item => db.writeBlock item.2) db =
        { db with file := file, entry := entry, dirtyPageNum := dirtyPageNum } := by
    intro items
    induction items with
    | nil => exact fun db => ⟨db.file, db.entry, db.dirtyPageNum, rfl⟩
    | cons item rest ih =>
      intro db
      obtain ⟨file, entry, dirtyPageNum, hwrite⟩ := writeBlock_keeps db item.2
      obtain ⟨lastFile, lastEntry, lastDirty, hrest⟩ := ih (db.writeBlock item.2)
      refine ⟨lastFile, lastEntry, lastDirty, ?_⟩
      rw [List.foldl_cons, hrest, hwrite]
  unfold HashDb.commit
  split_ifs with hattached
  · obtain ⟨file, entry, dirtyPageNum, hwrites⟩ := hall db.toBeWrited.toList db.writeHeader
    exact ⟨file, entry, dirtyPageNum, hwrites⟩
  · exact ⟨db.file, db.entry, db.dirtyPageNum, rfl⟩

theorem Framed.commit (hdb : Framed db) : Framed db.commit := by
  have hall : ∀ (items : List (Nat × (Nat × Nat))) (db : HashDb), Framed db →
      Framed (items.foldl (fun db item => db.writeBlock item.2) db) := by
    intro items
    induction items with
    | nil => exact fun _ hdb => hdb
    | cons item rest ih => exact fun db hdb => ih _ (hdb.writeBlock item.2)
  unfold HashDb.commit
  split_ifs with hattached
  · exact hall _ _ ⟨hdb.size, hdb.sized, hdb.closed⟩
  · exact hdb

theorem Framed.flushCacheImpl (hdb : Framed db) : Framed db.flushCacheImpl := by
  have hcommit : Framed
      (if 2 * db.dirtyPageNum.toNat ≥ db.activeNum.toNat then db.commit else db) := by
    split_ifs with hdirty
    · exact hdb.commit
    · exact hdb
  unfold HashDb.flushCacheImpl
  generalize (if 2 * db.dirtyPageNum.toNat ≥ db.activeNum.toNat then db.commit else db) = kept
    at hcommit
  refine ⟨hcommit.size, fun i => ?_, fun hclosed i => ?_⟩
  · have hchain := hcommit.sized i
    simp only
    split_ifs with hlt
    · intro bucket hbucket
      obtain ⟨before, hbefore, rfl⟩ := List.mem_map.mp hbucket
      exact sized_evict (hchain before hbefore)
    · exact hchain
  · obtain ⟨hnil, haddr⟩ := enter_eq_nil.mp (hcommit.closed hclosed i)
    refine enter_eq_nil.mpr ⟨?_, haddr⟩
    simp only [hnil, List.map_nil, ite_self]

private theorem flushCache_keeps (db : HashDb) :
    ∃ file entry activeNum dirtyPageNum, db.flushCache =
      { db with
        file := file
        entry := entry
        activeNum := activeNum
        dirtyPageNum := dirtyPageNum } := by
  unfold HashDb.flushCache HashDb.flushCacheImpl
  split_ifs with hfull hdirty
  · obtain ⟨file, entry, dirtyPageNum, hcommit⟩ := commit_keeps db
    rw [hcommit]
    exact ⟨_, _, _, _, rfl⟩
  · exact ⟨_, _, _, _, rfl⟩
  · exact ⟨db.file, db.entry, db.activeNum, db.dirtyPageNum, rfl⟩

@[simp] theorem flushCache_sfh (db : HashDb) : db.flushCache.sfh = db.sfh := by
  obtain ⟨file, entry, activeNum, dirtyPageNum, hflush⟩ := flushCache_keeps db
  rw [hflush]

@[simp] theorem flushCache_isOpen (db : HashDb) : db.flushCache.isOpen = db.isOpen := by
  obtain ⟨file, entry, activeNum, dirtyPageNum, hflush⟩ := flushCache_keeps db
  rw [hflush]

@[simp] theorem flushCache_index (db : HashDb) (key : Key) :
    db.flushCache.index hashFun key = db.index hashFun key := by
  obtain ⟨file, entry, activeNum, dirtyPageNum, hflush⟩ := flushCache_keeps db
  rw [hflush]
  rfl

theorem Framed.flushCache (hdb : Framed db) : Framed db.flushCache := by
  unfold HashDb.flushCache
  split_ifs with hfull
  · exact hdb.flushCacheImpl
  · exact hdb

theorem Framed.unloadAll (hdb : Framed db) : Framed db.unloadAll where
  size := hdb.size
  sized := fun _ => sized_nil
  closed := fun hclosed i =>
    enter_eq_nil.mpr ⟨rfl, (enter_eq_nil.mp (hdb.closed hclosed i)).2⟩

theorem Framed.flush (hdb : Framed db) : Framed db.flush := hdb.commit.unloadAll

theorem Framed.close (hdb : Framed db) : Framed db.close.1 := by
  unfold HashDb.close
  split_ifs with hclosed
  · exact hdb
  · obtain ⟨file, entry, dirtyPageNum, hcommit⟩ := commit_keeps { db with isOpen := false }
    refine ⟨?_, fun _ => sized_nil, fun _ _ => rfl⟩
    simp only [HashDb.flush, HashDb.unloadAll, hcommit]
    exact hdb.size

theorem Framed.open_ (hdb : Framed db) : Framed db.open_.1 := by
  unfold HashDb.open_
  by_cases hopen : db.isOpen = true
  · rw [if_pos hopen]
    exact hdb
  rw [if_neg hopen]
  by_cases hnew : (!db.exists_) = true
  · rw [if_pos hnew]
    have hfresh : Framed { db with
        exists_ := true
        file := fun _ => 0
        attached := true
        entry := fun _ => []
        bucketAddr := fun _ => 0 } := ⟨hdb.size, fun _ => sized_nil, fun _ _ => rfl⟩
    exact hfresh.commit.of_open rfl rfl hfresh.commit.sized
  rw [if_neg hnew]
  simp only
  have hread : (HashHeader.fromFile db.file).bucketSize < 2 ^ 64 := by
    unfold HashHeader.fromFile
    have hlt := Bytes.decode_lt (db.file.read 8 8)
    rwa [ByteStore.read_length] at hlt
  by_cases hmagic : (HashHeader.fromFile db.file).magic ≠ HashHeader.consistent
  · rw [if_pos hmagic]
    have hclosed := hdb.closed (Bool.eq_false_iff.mpr hopen)
    refine ⟨hread, fun i => ?_, fun _ => hclosed⟩
    simp only [(enter_eq_nil.mp (hclosed i)).1]
    exact sized_nil
  · rw [if_neg hmagic]
    refine ⟨hread, fun i => ?_, fun hnever => nomatch hnever⟩
    simp only
    split_ifs with haddr
    · exact sized_nil
    · exact sized_cons.mpr ⟨sized_create _, sized_nil⟩
    · exact sized_nil
    · exact sized_cons.mpr ⟨sized_create _, sized_nil⟩

private theorem searchChain_sized {key : Key} {fuel : Nat} {walk : Walk}
    (hchain : Sized bucketSize chain)
    (hsearch : HashDb.searchChain bucketSize file key fuel chain = some walk) :
    Sized bucketSize walk.chain := by
  induction fuel generalizing chain walk with
  | zero => cases hsearch
  | succ fuel ih =>
    cases chain with
    | nil => cases hsearch
    | cons sa behind =>
      obtain ⟨hsa, hbehind⟩ := sized_cons.mp hchain
      simp only [HashDb.searchChain, Option.bind_eq_bind, Option.bind_eq_some_iff] at hsearch
      obtain ⟨str, -, place, -, hplace⟩ := hsearch
      cases place with
      | found p =>
        cases hplace
        exact hchain
      | past p =>
        simp only at hplace
        split_ifs at hplace with hlast
        · cases hplace
          exact sized_cons.mpr ⟨hsa, sized_nil⟩
        · obtain ⟨rest, hrest, hwalk⟩ := Option.bind_eq_some_iff.mp hplace
          cases hwalk
          exact sized_cons.mpr ⟨hsa, ih (sized_loadNext hbehind) hrest⟩

theorem search_cases {key : Key} {found : Bool} {locn : Option Cursor}
    (hsearch : HashDb.search_ hashFun db key = some (next, found, locn)) :
    next = db ∧ found = false ∧ locn = none ∧
      (db.isOpen = true → db.enter (db.index hashFun key) = []) ∨
    ∃ sa behind walk activeNum, db.isOpen = true ∧
      db.enter (db.index hashFun key) = sa :: behind ∧
      HashDb.searchChain db.sfh.bucketSize db.file key (db.sfh.nBlock + 1)
        (db.load (sa :: behind)).2 = some walk ∧
      found = walk.found ∧ locn = some walk.locn ∧
      next = { db with
        activeNum := activeNum
        entry := Function.update db.entry (db.index hashFun key) walk.chain } := by
  unfold HashDb.search_ at hsearch
  by_cases hclosed : (!db.isOpen) = true
  · rw [if_pos hclosed] at hsearch
    cases hsearch
    refine Or.inl ⟨rfl, rfl, rfl, fun hopen => ?_⟩
    rw [hopen] at hclosed
    cases hclosed
  rw [if_neg hclosed] at hsearch
  have hopen : db.isOpen = true := by simpa using hclosed
  simp only at hsearch
  cases henter : db.enter (db.index hashFun key) with
  | nil =>
    simp only [henter] at hsearch
    cases hsearch
    exact Or.inl ⟨rfl, rfl, rfl, fun _ => rfl⟩
  | cons sa behind =>
    obtain ⟨activeNum, hload⟩ := load_keeps db (sa :: behind)
    simp only [henter, hload, Option.bind_eq_bind, Option.bind_eq_some_iff, Option.some.injEq,
      Prod.mk.injEq] at hsearch
    obtain ⟨walk, hwalk, rfl, rfl, rfl⟩ := hsearch
    exact Or.inr ⟨sa, behind, walk, _, hopen, rfl, hwalk, rfl, rfl, rfl⟩

theorem Framed.search_ (hdb : Framed db) {key : Key} {found : Bool} {locn : Option Cursor}
    (hsearch : HashDb.search_ hashFun db key = some (next, found, locn)) : Framed next := by
  rcases search_cases hsearch with
    ⟨rfl, -, -, -⟩ | ⟨sa, behind, walk, activeNum, hopen, henter, hwalk, -, -, rfl⟩
  · exact hdb
  · have hchain := hdb.enter (db.index hashFun key)
    rw [henter] at hchain
    exact hdb.put hopen rfl rfl (searchChain_sized (sized_load hchain) hwalk)

theorem Framed.rewrite (hdb : Framed db) (hopen : next.isOpen = true)
    (hsize : next.sfh.bucketSize = db.sfh.bucketSize) {sa : BucketChain}
    (hentry : next.entry = Function.update db.entry idx ((db.entry idx).set depth sa))
    (hsa : sa.Sized db.sfh.bucketSize) : Framed next :=
  hdb.put hopen hsize hentry ((hdb.sized idx).set hsa depth)

theorem putRecord_cases {locn : Cursor} {key : Key} {value : Value}
    (hput : db.putRecord idx locn key value = some next) :
    ∃ sa old str dirtyPageNum, (db.entry idx)[locn.depth]? = some sa ∧ sa.str = some old ∧
      poke old locn.p (record key value) = some str ∧
      next = { db with
        sfh := { db.sfh with numItems := sizeAdd db.sfh.numItems 1 }
        dirtyPageNum := dirtyPageNum
        entry := Function.update db.entry idx ((db.entry idx).set locn.depth
          { sa with str := some str, num := sa.num + 1, isDirty := true }) } := by
  simp only [HashDb.putRecord, Option.bind_eq_bind, Option.bind_eq_some_iff] at hput
  obtain ⟨sa, hsa, old, hold, str, hpoke, hnext⟩ := hput
  obtain ⟨dirtyPageNum, hdirty⟩ := setDirty_eq db sa
  rw [hdirty] at hnext
  cases hnext
  exact ⟨sa, old, str, dirtyPageNum, hsa, hold, hpoke, rfl⟩

theorem Framed.putRecord (hdb : Framed db) (hopen : db.isOpen = true) {locn : Cursor} {key : Key}
    {value : Value} (hput : db.putRecord idx locn key value = some next) : Framed next := by
  obtain ⟨sa, old, str, dirtyPageNum, hsa, hold, hpoke, rfl⟩ := putRecord_cases hput
  have hlength := sized_poke ((hdb.sized idx).get hsa) hold hpoke
  exact hdb.rewrite hopen rfl rfl (BucketChain.sized_of_str rfl hlength)

private theorem sized_allocateBlock (db : HashDb) :
    db.allocateBlock.2.Sized db.sfh.bucketSize :=
  BucketChain.sized_of_str rfl List.length_replicate

theorem Framed.nextBlock (hdb : Framed db) (hopen : db.isOpen = true)
    (hblock : db.nextBlock idx depth = some next) : Framed next ∧ next.isOpen = true := by
  simp only [HashDb.nextBlock, Option.bind_eq_bind, Option.bind_eq_some_iff] at hblock
  obtain ⟨sa, hsa, hnext⟩ := hblock
  have hchain := hdb.sized idx
  split_ifs at hnext with hlast
  · obtain ⟨dirtyPageNum, hdirty⟩ := setDirty_eq db sa
    rw [hdirty] at hnext
    cases hnext
    refine ⟨hdb.put hopen rfl rfl ((hchain.set ?_ depth).append (sized_cons.mpr ⟨?_, sized_nil⟩)),
      hopen⟩
    · exact (hchain.get hsa).congr rfl
    · exact sized_allocateBlock db
  · cases hnext
    exact ⟨hdb.put hopen rfl rfl ((hchain.take _).append (sized_loadNext (hchain.drop _))), hopen⟩

theorem Framed.addRecord (hdb : Framed db) (hopen : db.isOpen = true) {locn : Option Cursor}
    {key : Key} {value : Value} (hadd : db.addRecord idx locn key value = some next) :
    Framed next := by
  unfold HashDb.addRecord at hadd
  cases locn with
  | none =>
    simp only at hadd
    split_ifs at hadd with haddr
    refine Framed.putRecord ?_ ?_ hadd
    · exact hdb.put hopen rfl rfl (sized_cons.mpr ⟨sized_allocateBlock db, sized_nil⟩)
    · exact hopen
  | some locn =>
    simp only at hadd
    split_ifs at hadd with hfull
    · obtain ⟨added, hblock, hput⟩ := Option.bind_eq_some_iff.mp hadd
      obtain ⟨hadded, hstill⟩ := hdb.nextBlock hopen hblock
      exact hadded.putRecord hstill hput
    · exact hdb.putRecord hopen hadd

private theorem search_open {key : Key} {found : Bool} {locn : Option Cursor}
    (hsearch : HashDb.search_ hashFun db key = some (next, found, locn)) :
    next.isOpen = db.isOpen := by
  rcases search_cases hsearch with ⟨rfl, -, -, -⟩ | ⟨sa, behind, walk, activeNum, -, -, -, -, -, rfl⟩
  · rfl
  · rfl

theorem Framed.insert (hdb : Framed db) {key : Key} {value : Value} {ok : Bool}
    (hinsert : HashDb.insert hashFun db key value = some (next, ok)) : Framed next := by
  unfold HashDb.insert at hinsert
  by_cases hclosed : (!db.isOpen) = true
  · rw [if_pos hclosed] at hinsert
    cases hinsert
    exact hdb
  rw [if_neg hclosed] at hinsert
  obtain ⟨⟨searched, found, locn⟩, hsearch, hrest⟩ := Option.bind_eq_some_iff.mp hinsert
  have hsearched := hdb.flushCache.search_ hsearch
  have hopen : searched.isOpen = true := by
    rw [search_open hsearch, flushCache_isOpen]
    simpa using hclosed
  simp only at hrest
  split_ifs at hrest with hfound
  · cases hrest
    exact hsearched
  · obtain ⟨added, hadd, hnext⟩ := Option.bind_eq_some_iff.mp hrest
    cases hnext
    exact hsearched.addRecord hopen hadd

theorem Framed.find (hdb : Framed db) {key : Key} {value : Option Value}
    (hfind : HashDb.find hashFun db key = some (next, value)) : Framed next := by
  unfold HashDb.find at hfind
  split_ifs at hfind with hclosed
  · cases hfind
    exact hdb
  obtain ⟨⟨searched, found, locn⟩, hsearch, hrest⟩ := Option.bind_eq_some_iff.mp hfind
  have hsearched := hdb.search_ hsearch
  simp only at hrest
  split_ifs at hrest with hmissed
  · cases hrest
    exact hsearched
  · simp only [Option.bind_eq_bind, Option.bind_eq_some_iff] at hrest
    obtain ⟨place, -, sa, -, str, -, vsz, -, got, -, hnext⟩ := hrest
    cases hnext
    exact hsearched

theorem Framed.search (hdb : Framed db) {key : Key} {found : Bool}
    (hsearch : HashDb.search hashFun db key = some (next, found)) : Framed next := by
  obtain ⟨⟨searched, found', locn⟩, hlook, hnext⟩ := Option.bind_eq_some_iff.mp hsearch
  cases hnext
  exact hdb.flushCache.search_ hlook

theorem Framed.overwrite (hdb : Framed db) (hopen : db.isOpen = true) {p : Nat}
    {data : List UInt8} (hwrite : db.overwrite idx depth p data = some next) : Framed next := by
  simp only [HashDb.overwrite, Option.bind_eq_bind, Option.bind_eq_some_iff] at hwrite
  obtain ⟨sa, hsa, old, hold, hrest⟩ := hwrite
  obtain ⟨dirtyPageNum, hdirty⟩ := setDirty_eq db sa
  rw [hdirty] at hrest
  obtain ⟨str, hpoke, hnext⟩ := hrest
  cases hnext
  have hlength := sized_poke ((hdb.sized idx).get hsa) hold hpoke
  exact hdb.rewrite hopen rfl rfl (BucketChain.sized_of_str rfl hlength)

theorem Framed.cutRecord (hdb : Framed db) (hopen : db.isOpen = true) {locn : Cursor}
    (hcut : db.cutRecord idx locn = some next) : Framed next := by
  simp only [HashDb.cutRecord, Option.bind_eq_bind, Option.bind_eq_some_iff] at hcut
  obtain ⟨sa, hsa, old, hold, str, hgap, hnext⟩ := hcut
  have hlength : str.length = BucketChain.blockSize db.sfh.bucketSize := by
    simp only [closeGap, Option.bind_eq_bind, Option.bind_eq_some_iff] at hgap
    obtain ⟨ksz, -, vsz, -, moved, -, hpoke⟩ := hgap
    exact sized_poke ((hdb.sized idx).get hsa) hold hpoke
  obtain ⟨dirtyPageNum, hdirty⟩ :=
    setDirty_eq db { sa with str := some str, num := sa.num - 1 }
  rw [hdirty] at hnext
  cases hnext
  exact hdb.rewrite hopen rfl rfl (BucketChain.sized_of_str rfl hlength)

theorem Framed.del (hdb : Framed db) {key : Key} {ok : Bool}
    (hdel : HashDb.del hashFun db key = some (next, ok)) : Framed next := by
  unfold HashDb.del at hdel
  split_ifs at hdel with hclosed
  · cases hdel
    exact hdb
  obtain ⟨⟨searched, found, locn⟩, hsearch, hrest⟩ := Option.bind_eq_some_iff.mp hdel
  have hsearched := hdb.search_ hsearch
  have hopen : searched.isOpen = true := (search_open hsearch).trans (by simpa using hclosed)
  simp only at hrest
  split_ifs at hrest with hmissed
  · cases hrest
    exact hsearched
  · simp only [Option.bind_eq_bind, Option.bind_eq_some_iff] at hrest
    obtain ⟨place, -, cut, hcut, hnext⟩ := hrest
    cases hnext
    exact hsearched.cutRecord hopen hcut

theorem Framed.update (hdb : Framed db) {key : Key} {value : Value} {ok : Bool}
    (hupdate : HashDb.update hashFun db key value = some (next, ok)) : Framed next := by
  unfold HashDb.update at hupdate
  split_ifs at hupdate with hclosed
  · cases hupdate
    exact hdb
  obtain ⟨⟨searched, found, locn⟩, hsearch, hrest⟩ := Option.bind_eq_some_iff.mp hupdate
  have hsearched := hdb.search_ hsearch
  have hopen : searched.isOpen = true := (search_open hsearch).trans (by simpa using hclosed)
  simp only at hrest
  split_ifs at hrest with hmissed
  · exact hsearched.insert hrest
  simp only [Option.bind_eq_bind, Option.bind_eq_some_iff] at hrest
  obtain ⟨place, -, sa, -, str, -, ksz, -, vsz, -, hrest⟩ := hrest
  split_ifs at hrest with hsame
  · obtain ⟨written, hwrite, hnext⟩ := Option.bind_eq_some_iff.mp hrest
    cases hnext
    exact hsearched.overwrite hopen hwrite
  · obtain ⟨written, hwrite, hinsert⟩ := Option.bind_eq_some_iff.mp hrest
    exact (hsearched.overwrite hopen hwrite).insert hinsert

theorem Framed.loadNext (hdb : Framed db) (hopen : db.isOpen = true) (idx depth : Nat) :
    Framed (db.loadNext idx depth) := by
  have hchain := hdb.sized idx
  exact hdb.put hopen rfl rfl ((hchain.take _).append (sized_loadNext (hchain.drop _)))

theorem Framed.skipEmpty {fuel : Nat} (hdb : Framed db) (hopen : db.isOpen = true)
    {found : Option Nat} (hskip : HashDb.skipEmpty fuel db idx depth = some (next, found)) :
    Framed next ∧ next.isOpen = true := by
  induction fuel generalizing db depth with
  | zero => cases hskip
  | succ fuel ih =>
    unfold HashDb.skipEmpty at hskip
    split at hskip
    · cases hskip
      exact ⟨hdb, hopen⟩
    · split_ifs at hskip with hempty
      · exact ih (hdb.loadNext hopen idx depth) hopen hskip
      · cases hskip
        exact ⟨hdb, hopen⟩

theorem Framed.enterLoaded (hdb : Framed db) (hopen : db.isOpen = true) (idx : Nat) :
    Framed (db.enterLoaded idx) ∧ (db.enterLoaded idx).isOpen = true := by
  obtain ⟨activeNum, hload⟩ := load_keeps db (db.enter idx)
  unfold HashDb.enterLoaded
  simp only [hload]
  exact ⟨hdb.put hopen rfl rfl (sized_load (hdb.enter idx)), hopen⟩

theorem Framed.nextBucket {fuel : Nat} (hdb : Framed db) (hopen : db.isOpen = true)
    {locn : Option Locn} (hnext : HashDb.nextBucket fuel db idx = some (next, locn)) :
    Framed next := by
  induction fuel generalizing db idx with
  | zero => cases hnext
  | succ fuel ih =>
    unfold HashDb.nextBucket at hnext
    split_ifs at hnext with hend
    · cases hnext
      exact hdb
    obtain ⟨⟨skipped, found⟩, hskip, hrest⟩ := Option.bind_eq_some_iff.mp hnext
    obtain ⟨hentered, hstill⟩ := hdb.enterLoaded hopen idx
    obtain ⟨hskipped, hopenSkipped⟩ := hentered.skipEmpty hstill hskip
    cases found with
    | some depth =>
      cases hrest
      exact hskipped
    | none =>
      simp only at hrest
      split_ifs at hrest with hlast
      · cases hrest
        exact hskipped
      · exact ih hskipped hopenSkipped hrest

theorem Framed.seqBlock (hdb : Framed db) (hopen : db.isOpen = true) {ptr : Option Key}
    {locn : Option Locn} (hseq : db.seqBlock hashFun idx depth ptr = some (next, locn)) :
    Framed next := by
  obtain ⟨⟨skipped, found⟩, hskip, hrest⟩ := Option.bind_eq_some_iff.mp hseq
  obtain ⟨hskipped, hstill⟩ := (hdb.loadNext hopen idx depth).skipEmpty hopen hskip
  cases found with
  | some depth =>
    cases hrest
    exact hskipped
  | none => exact hskipped.nextBucket hstill hrest

theorem Framed.seq_ (hdb : Framed db) {locn out : Option Locn} {ok : Bool}
    (hseq : db.seq_ hashFun locn = some (next, out, ok)) : Framed next := by
  unfold HashDb.seq_ at hseq
  split_ifs at hseq with hclosed
  · cases hseq
    exact hdb
  have hopen : db.isOpen = true := by simpa using hclosed
  split at hseq
  · cases hseq
    exact hdb
  · obtain ⟨sa, -, hrest⟩ := Option.bind_eq_some_iff.mp hseq
    split_ifs at hrest with hcounted
    · simp only [Option.bind_eq_bind, Option.bind_eq_some_iff] at hrest
      obtain ⟨str, -, ksize, -, vsize, -, ptr, -, size, -, hrest⟩ := hrest
      split_ifs at hrest with hend
      · obtain ⟨⟨moved, place⟩, hblock, hnext⟩ := Option.bind_eq_some_iff.mp hrest
        cases hnext
        exact hdb.seqBlock hopen hblock
      · cases hrest
        exact hdb
    · obtain ⟨⟨moved, place⟩, hblock, hnext⟩ := Option.bind_eq_some_iff.mp hrest
      cases hnext
      exact hdb.seqBlock hopen hblock

theorem Framed.safeFlushCache (hdb : Framed db) {locn out : Option Locn}
    (hflush : db.safeFlushCache hashFun locn = some (next, out)) : Framed next := by
  unfold HashDb.safeFlushCache at hflush
  split_ifs at hflush with hfull
  · simp only [Option.bind_eq_bind, Option.bind_eq_some_iff] at hflush
    obtain ⟨got, -, entry, -, ⟨searched, found, place⟩, hsearch, hnext⟩ := hflush
    cases hnext
    exact hdb.flushCacheImpl.flushCache.search_ hsearch
  · cases hflush
    exact hdb

theorem Framed.seq (hdb : Framed db) {locn out : Option Locn} {ok : Bool}
    (hseq : db.seq hashFun locn = some (next, out, ok)) : Framed next := by
  obtain ⟨⟨flushed, place⟩, hflush, hrest⟩ := Option.bind_eq_some_iff.mp hseq
  exact (hdb.safeFlushCache hflush).seq_ hrest

theorem Framed.firstBucket {left : Nat} (hdb : Framed db) :
    Framed (HashDb.firstBucket left db idx).1 := by
  induction left generalizing idx with
  | zero => exact hdb
  | succ left ih =>
    unfold HashDb.firstBucket
    split_ifs with hempty
    · exact ih
    · have hopen : db.isOpen = true := by
        by_contra hclosed
        have hnone := hdb.closed (Bool.eq_false_iff.mpr hclosed) idx
        rw [hnone] at hempty
        exact hempty rfl
      exact (hdb.enterLoaded hopen idx).1

theorem Framed.firstRecord {fuel : Nat} (hdb : Framed db) {locn out : Option Locn}
    (hfirst : HashDb.firstRecord hashFun fuel db locn = some (next, out)) : Framed next := by
  induction fuel generalizing db locn with
  | zero => cases hfirst
  | succ fuel ih =>
    unfold HashDb.firstRecord at hfirst
    obtain ⟨got, -, hrest⟩ := Option.bind_eq_some_iff.mp hfirst
    cases got with
    | some entry =>
      cases hrest
      exact hdb
    | none =>
      obtain ⟨⟨moved, place, ok⟩, hseq, hagain⟩ := Option.bind_eq_some_iff.mp hrest
      exact ih (hdb.seq_ hseq) hagain

theorem Framed.getFirstLocn (hdb : Framed db) {locn : Option Locn}
    (hfirst : db.getFirstLocn hashFun = some (next, locn)) : Framed next := by
  unfold HashDb.getFirstLocn at hfirst
  split_ifs at hfirst with hnone
  · cases hfirst
    exact hdb
  · exact hdb.firstBucket.firstRecord hfirst

/-- What a caller can do to a database: a request, or a step of an iteration, from
any cursor. -/
inductive Deed where
  | request (request : Request)
  | first
  | seq (locn : Option Locn)
deriving DecidableEq, Repr

def perform (hashFun : Key → UInt32) (db : HashDb) : Deed → Option HashDb
  | .request request => (execRequest hashFun db request).map Prod.fst
  | .first => (db.getFirstLocn hashFun).map Prod.fst
  | .seq locn => (db.seq hashFun locn).map Prod.fst

theorem Framed.exec (hdb : Framed db) {call : Call} {reply : Reply}
    (hexec : Db.exec hashFun db call = some (next, reply)) : Framed next := by
  cases call with
  | insert key value =>
    obtain ⟨out, hinsert, hnext⟩ := Option.map_eq_some_iff.mp hexec
    cases hnext
    exact hdb.insert hinsert
  | find key =>
    obtain ⟨out, hfind, hnext⟩ := Option.map_eq_some_iff.mp hexec
    cases hnext
    exact hdb.find hfind
  | del key =>
    obtain ⟨out, hdel, hnext⟩ := Option.map_eq_some_iff.mp hexec
    cases hnext
    exact hdb.del hdel
  | search key =>
    obtain ⟨out, hsearch, hnext⟩ := Option.map_eq_some_iff.mp hexec
    cases hnext
    exact hdb.search hsearch
  | setCacheSize cacheSize =>
    cases hexec
    exact ⟨hdb.size, hdb.sized, hdb.closed⟩
  | commit =>
    cases hexec
    exact hdb.commit
  | flush =>
    cases hexec
    exact hdb.flush
  | close =>
    cases hexec
    exact hdb.close
  | open_ =>
    cases hexec
    exact hdb.open_

theorem Framed.perform (hdb : Framed db) {deed : Deed}
    (hperform : Db.perform hashFun db deed = some next) : Framed next := by
  cases deed with
  | request request =>
    obtain ⟨⟨out, reply⟩, hexec, rfl⟩ := Option.map_eq_some_iff.mp hperform
    cases request with
    | call call => exact hdb.exec hexec
    | update key value =>
      obtain ⟨done, hupdate, hnext⟩ := Option.map_eq_some_iff.mp hexec
      cases hnext
      exact hdb.update hupdate
  | first =>
    obtain ⟨out, hfirst, rfl⟩ := Option.map_eq_some_iff.mp hperform
    exact hdb.getFirstLocn hfirst
  | seq locn =>
    obtain ⟨out, hseq, rfl⟩ := Option.map_eq_some_iff.mp hperform
    exact hdb.seq hseq

/-- In every run the buffers keep their size, whatever is written into them. -/
theorem framed_run {bucketSize dpow : Nat} (hsize : bucketSize < 2 ^ 64) {deeds : List Deed}
    (hrun : run (perform hashFun) (start bucketSize dpow).db deeds = some db) : Framed db := by
  have hnew : Framed ((HashDb.create.setBucketSize bucketSize).setDegree dpow) :=
    ⟨hsize, fun _ => sized_nil, fun _ _ => rfl⟩
  have hstart : Framed (start bucketSize dpow).db := by
    unfold start
    exact hnew.open_
  exact run_invariant (fun _ _ _ hdb hstep => Framed.perform hdb hstep) hstart hrun

end Libsax.Db
