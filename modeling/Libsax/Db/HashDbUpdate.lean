import Libsax.Db.HashDbRuns

/-! Updates. A value of the same size is written over the old one; for any other
size the old record stays, under a key of bytes `0xff`. -/
namespace Libsax.Db

open Libsax.Lib

variable {hashFun : Key → UInt32} {db : HashDb} {chains : Nat → List Block} {map : Map}

theorem Layout.replace {bucketSize dpow nBlock : Nat}
    (hlayout : Layout hashFun bucketSize dpow nBlock chains map) {idx depth : Nat}
    {block newBlock : Block} {left right : List (Key × Value)} {key : Key} {old value : Value}
    (hidx : idx < 2 ^ dpow) (hblock : (chains idx)[depth]? = some block)
    (hrecords : block.records = left ++ (key, old) :: right)
    (hnew : newBlock.records = left ++ (key, value) :: right) (hfpos : newBlock.fpos = block.fpos)
    (hfits : newBlock.Fits bucketSize) :
    ((key, value) :: without map key).length = map.length ∧
    Layout hashFun bucketSize dpow nBlock
      (Function.update chains idx ((chains idx).set depth newBlock))
      ((key, value) :: without map key) := by
  obtain ⟨others, hold, hset⟩ := recordsOf_set hblock newBlock
  have hless : (recordsOf (chains idx)).Perm ((key, old) :: (left ++ right ++ others)) := by
    rw [hrecords] at hold
    exact hold.trans (List.perm_middle.append_right others)
  have hmore : (recordsOf ((chains idx).set depth newBlock)).Perm
      ((key, value) :: (left ++ right ++ others)) := by
    rw [hnew] at hset
    exact hset.trans (List.perm_middle.append_right others)
  have hcut := hlayout.perm.symm.trans (contents_update_less hidx hless)
  have hwithout := perm_without hlayout.distinct hcut
  have hback : (recordsOf ((chains idx).set depth newBlock)).Perm ((key, value) ::
      Function.update (fun i => recordsOf (chains i)) idx (left ++ right ++ others) idx) := by
    rw [Function.update_self]
    exact hmore
  have hput := contents_update_more hidx hback
  rw [Function.update_idem] at hput
  have hperm := hput.trans (hwithout.cons _)
  refine ⟨?_, hlayout.setBlock hidx hblock hfpos hfits ?_ hperm ?_⟩
  · rw [List.length_cons, hcut.length_eq, List.length_cons, hwithout.length_eq]
  · have hslots := hlayout.slot_eq hidx hblock
    rw [hrecords] at hslots
    intro entry hentry
    rw [hnew] at hentry
    rcases List.mem_append.mp hentry with hleft | hmem
    · exact hslots entry (List.mem_append_left _ hleft)
    · rcases List.mem_cons.mp hmem with rfl | hright
      · exact hslots (key, old) (List.mem_append_right _ List.mem_cons_self)
      · exact hslots entry (List.mem_append_right _ (List.mem_cons_of_mem _ hright))
  · refine List.nodup_cons.mpr ⟨fun hmem => ?_, hlayout.distinct.sublist
      (List.filter_sublist.map Prod.fst)⟩
    obtain ⟨entry, hentry, hkey⟩ := List.mem_map.mp hmem
    have hother := (List.mem_filter.mp hentry).2
    rw [decide_eq_true hkey] at hother
    cases hother

private theorem poke_value (front back : List UInt8) (key : Key) {old value : Value}
    (hlength : old.length = value.length) :
    poke (front ++ record key old ++ back) (front.length + 8 + 8 + key.length) value =
      some (front ++ record key value ++ back) := by
  have hold : front ++ record key old ++ back =
      (front ++ (Bytes.encode 8 key.length ++ Bytes.encode 8 old.length ++ key)) ++ old ++ back := by
    unfold record
    simp only [List.append_assoc]
  have hvalue : front ++ record key value ++ back =
      (front ++ (Bytes.encode 8 key.length ++ Bytes.encode 8 old.length ++ key)) ++ value ++
        back := by
    unfold record
    rw [hlength]
    simp only [List.append_assoc]
  have hplace : front.length + 8 + 8 + key.length =
      (front ++ (Bytes.encode 8 key.length ++ Bytes.encode 8 old.length ++ key)).length := by
    simp only [List.length_append, Bytes.encode_length]
    omega
  rw [hold, hvalue, hplace]
  exact poke_middle _ old back hlength

theorem Block.Fits.setValue {bucketSize : Nat} {block : Block} (hfits : block.Fits bucketSize)
    {left right : List (Key × Value)} {key : Key} {old value : Value}
    (hrecords : block.records = left ++ (key, old) :: right)
    (hlength : old.length = value.length) :
    ∃ newBlock : Block,
      poke block.str ((packed left).length + 8 + 8 + key.length) value = some newBlock.str ∧
      newBlock.fpos = block.fpos ∧ newBlock.records = left ++ (key, value) :: right ∧
      newBlock.Fits bucketSize := by
  have hsplit : ∀ middle : Value, packed (left ++ (key, middle) :: right) ++ block.rest =
      packed left ++ record key middle ++ (packed right ++ block.rest) := by
    intro middle
    simp
  have hstr : block.str = packed left ++ record key old ++ (packed right ++ block.rest) := by
    unfold Block.str
    rw [hrecords, hsplit]
  have hpoke := poke_value (packed left) (packed right ++ block.rest) key hlength
  rw [← hstr, ← hsplit] at hpoke
  refine ⟨⟨block.fpos, left ++ (key, value) :: right, block.rest⟩, hpoke, rfl, rfl, ?_, ?_, ?_, ?_,
    hfits.positive, hfits.bounded⟩
  · have hroom := hfits.room
    rw [hrecords] at hroom
    simp only [packed_append, packed_cons, List.length_append, record_length] at hroom ⊢
    omega
  · exact (poke_length hpoke).trans hfits.length
  · have hcount := hfits.countable
    rw [hrecords] at hcount
    simpa using hcount
  · intro entry hentry
    have hkeyed := hfits.keyed
    rw [hrecords] at hkeyed
    rcases List.mem_append.mp hentry with hleft | hmem
    · exact hkeyed entry (List.mem_append_left _ hleft)
    · rcases List.mem_cons.mp hmem with rfl | hright
      · exact hkeyed (key, old) (List.mem_append_right _ List.mem_cons_self)
      · exact hkeyed entry (List.mem_append_right _ (List.mem_cons_of_mem _ hright))

theorem Attached.overwrite (hdb : Attached hashFun db chains map) {idx depth p : Nat}
    {bucket : BucketChain} {block newBlock : Block} {data : List UInt8} {newMap : Map}
    (hidx : idx < 2 ^ db.sfh.dpow) (hbucket : (db.entry idx)[depth]? = some bucket)
    (hblock : (chains idx)[depth]? = some block) (hloaded : bucket.isLoaded = true)
    (hpoke : poke block.str p data = some newBlock.str) (hfpos : newBlock.fpos = block.fpos)
    (hsame : newBlock.records.length = block.records.length)
    (hlayout : Layout hashFun db.sfh.bucketSize db.sfh.dpow db.sfh.nBlock
      (Function.update chains idx ((chains idx).set depth newBlock)) newMap)
    (hlength : newMap.length = map.length) :
    ∃ next, db.overwrite idx depth p data = some next ∧ next.isOpen = db.isOpen ∧
      next.sfh = db.sfh ∧
      Attached hashFun next (Function.update chains idx ((chains idx).set depth newBlock))
        newMap := by
  obtain ⟨other, hother, hshows⟩ := (hdb.holds idx hidx).getElem? hbucket
  rw [Option.some.inj (hother.symm.trans hblock)] at hshows
  obtain ⟨dirtyPageNum, hdirty⟩ := setDirty_eq db bucket
  have hnum : bucket.num = newBlock.num := by
    rw [hshows.num hloaded, Block.num, Block.num, hsame]
  have hwrite : db.overwrite idx depth p data = some { db with
      sfh := { db.sfh with numItems := db.sfh.numItems }
      entry := Function.update db.entry idx ((db.entry idx).set depth { bucket with
        str := some newBlock.str
        num := newBlock.num
        isDirty := true })
      dirtyPageNum := dirtyPageNum } := by
    unfold HashDb.overwrite
    simp only [hbucket, Option.bind_eq_bind, Option.bind_some, hshows.str hloaded, hdirty, hpoke,
      ← hnum]
  exact ⟨_, hwrite, rfl, rfl, hdb.setBlock hidx hbucket hblock hloaded hfpos hlayout
    (by rw [hlength]; exact hdb.count) dirtyPageNum⟩

/-- The key is as an update leaves that of an old record. -/
def wiped (key : Key) : Bool := key.all fun byte => decide (byte = 0xff)

/-- Whether an update takes place: not if it would change the size of a value whose
key has no other byte than `0xff`. -/
def updates (map : Map) (key : Key) (value : Value) : Bool :=
  match lookup map key with
  | none => true
  | some old => decide (old.length = value.length ∨ ¬wiped key = true)

def updated (map : Map) (key : Key) (value : Value) : Map :=
  if updates map key value then (key, value) :: without map key else map

private theorem replicate_of_wiped {key : Key} (hwiped : wiped key = true) :
    List.replicate key.length 0xff = key := by
  refine (List.eq_replicate_iff.mpr ⟨rfl, fun byte hbyte => ?_⟩).symm
  exact of_decide_eq_true (List.all_eq_true.mp hwiped byte hbyte)

private theorem poke_key (front back : List UInt8) (key : Key) (value : Value) :
    poke (front ++ record key value ++ back) (front.length + 8 + 8) key =
      some (front ++ record key value ++ back) := by
  have hsplit : front ++ record key value ++ back =
      (front ++ (Bytes.encode 8 key.length ++ Bytes.encode 8 value.length)) ++ key ++
        (value ++ back) := by
    unfold record
    simp only [List.append_assoc]
  have hplace : front.length + 8 + 8 =
      (front ++ (Bytes.encode 8 key.length ++ Bytes.encode 8 value.length)).length := by
    simp only [List.length_append, Bytes.encode_length]
  rw [hsplit, hplace]
  exact poke_middle _ key (value ++ back) rfl

theorem Attached.update (hdb : Attached hashFun db chains map) (hopen : db.isOpen = true)
    {key : Key} {value : Value} (hkey : key ≠ [])
    (hfit : 36 + key.length + value.length ≤ db.sfh.bucketSize)
    (hroom : lookup map key = none →
      Room db.sfh (chains (slot hashFun db.sfh.dpow key)) key value)
    (hplain : ∀ old, lookup map key = some old →
      old.length = value.length ∨ wiped key = true) :
    ∃ next newChains,
      HashDb.update hashFun db key value = some (next, updates map key value) ∧
      next.isOpen = true ∧ Attached hashFun next newChains (updated map key value) := by
  have hidx := slot_lt hashFun db.sfh.dpow key
  have hlookup := hdb.layout.lookup_eq key
  have hinsertAbsent : ∀ searched, searched.isOpen = true → searched.sfh = db.sfh →
      Attached hashFun searched chains map → lookup map key = none →
      ∃ next newChains, HashDb.insert hashFun searched key value = some (next, true) ∧
        next.isOpen = true ∧ Attached hashFun next newChains ((key, value) :: map) := by
    intro searched hstill hsfh hsearched habsent
    have hinsert := hsearched.insert hstill hkey (by rw [hsfh]; exact hfit)
      (by rw [hsfh]; exact hroom)
    rw [habsent] at hinsert
    exact hinsert
  unfold HashDb.update
  rw [if_neg (not_closed hopen)]
  rcases hdb.search_ hopen key with
    ⟨hnil, hsearch⟩ | ⟨walk, activeNum, hsearch, hdbNew, stop, hfinds | hmisses⟩
  · have habsent : lookup map key = none := by
      rw [hlookup, hnil]
      rfl
    rw [hsearch]
    unfold updated updates
    rw [habsent, without_of_absent habsent]
    exact hinsertAbsent db hopen rfl hdb habsent
  · obtain ⟨hfound, left, old, right, hrecords, hleft, hp⟩ := hfinds
    have hsome := hlookup.trans (stop.lookup_found hrecords hleft)
    have hfits := hdb.layout.fits _ hidx stop.block (List.mem_of_getElem? stop.block_eq)
    obtain ⟨hstr, hksz, hvsz, -⟩ := stop.reads hfits hdb.layout.size hrecords
    have hindex := hdbNew.index_eq key
    have hbucket : (Function.update db.entry (slot hashFun db.sfh.dpow key) walk.chain
        (slot hashFun db.sfh.dpow key))[walk.locn.depth]? = some stop.bucket := by
      rw [Function.update_self]
      exact stop.bucket_eq
    rw [hsearch]
    unfold updated updates
    rw [hsome]
    simp only [Option.bind_eq_bind, Option.bind_some, hfound, Bool.not_true, Bool.false_eq_true,
      if_false, hindex, hbucket, hstr, hp, hksz, hvsz, decide_eq_true_eq]
    by_cases hlength : old.length = value.length
    · obtain ⟨newBlock, hpoke, hfpos, hnew, hfitsNew⟩ := hfits.setValue hrecords hlength
      obtain ⟨hcount, hlayout⟩ :=
        hdb.layout.replace hidx stop.block_eq hrecords hnew hfpos hfitsNew
      have hsame : newBlock.records.length = stop.block.records.length := by
        rw [hrecords, hnew, List.length_append, List.length_append, List.length_cons,
          List.length_cons]
      obtain ⟨next, hwrite, hstill, -, hnext⟩ := hdbNew.overwrite hidx hbucket stop.block_eq
        stop.loaded hpoke hfpos hsame hlayout hcount
      rw [if_pos hlength, if_pos (Or.inl hlength), hwrite, decide_eq_true (Or.inl hlength)]
      exact ⟨next, _, rfl, hstill.trans hopen, hnext⟩
    · have hwiped := (hplain old hsome).resolve_left hlength
      have hpoke : poke stop.block.str ((packed left).length + 8 + 8) key = some stop.block.str := by
        have hmiddle : stop.block.str =
            packed left ++ record key old ++ (packed right ++ stop.block.rest) := by
          unfold Block.str
          rw [hrecords]
          simp
        rw [hmiddle]
        exact poke_key _ _ key old
      have hunchanged : Function.update chains (slot hashFun db.sfh.dpow key)
          ((chains (slot hashFun db.sfh.dpow key)).set walk.locn.depth stop.block) = chains := by
        rw [(set_at stop.block_eq _).trans (split_at stop.block_eq).1.symm, Function.update_eq_self]
      obtain ⟨next, hwrite, hstill, hsfh, hnext⟩ := hdbNew.overwrite hidx hbucket stop.block_eq
        stop.loaded hpoke rfl rfl (by rw [hunchanged]; exact hdb.layout) rfl
      rw [hunchanged] at hnext
      have hrefuse : ¬(old.length = value.length ∨ ¬wiped key = true) :=
        fun hor => hor.elim hlength fun hother => hother hwiped
      rw [if_neg hlength, if_neg hrefuse, replicate_of_wiped hwiped, hwrite, Option.bind_some,
        decide_eq_false hrefuse]
      have hopenNext := hstill.trans hopen
      have hinsert := hnext.insert hopenNext hkey (by rw [hsfh]; exact hfit)
        (fun habsent => nomatch hsome.symm.trans habsent)
      rw [hsome] at hinsert
      exact hinsert
  · have habsent := hlookup.trans (stop.lookup_missed hmisses)
    rw [hsearch]
    unfold updated updates
    rw [habsent, without_of_absent habsent]
    simp only [Option.bind_eq_bind, Option.bind_some, hmisses.1, Bool.not_false, if_true]
    exact hinsertAbsent _ hopen rfl hdbNew habsent

/-- The records of one block, `left` of them from `p` on, as `get_` reads them. -/
def readRecords (str : List UInt8) : Nat → Nat → Option (List (Key × Value))
  | 0, _ => some []
  | left + 1, p => do
    let ksz ← peekSize str p
    let vsz ← peekSize str (p + 8)
    let key ← peek str (p + 8 + 8) ksz
    let value ← peek str (p + 8 + 8 + ksz) vsz
    let rest ← readRecords str left (p + 8 + 8 + ksz + vsz)
    some ((key, value) :: rest)

def chainRecords : Chain → Option (List (Key × Value))
  | [] => some []
  | sa :: next => do
    let records ← readRecords (← sa.str) sa.num.toNatClampNeg 0
    let rest ← chainRecords next
    some (records ++ rest)

/-- The records of the buckets from 0 on. -/
def HashDb.stored (db : HashDb) : Nat → Option (List (Key × Value))
  | 0 => some []
  | size + 1 => do
    let front ← stored db size
    let records ← chainRecords (← db.blocks size)
    some (front ++ records)

private theorem readRecords_packed {records : List (Key × Value)} (back : List UInt8)
    (hsizes : ∀ entry ∈ records, entry.1.length < 2 ^ 64 ∧ entry.2.length < 2 ^ 64)
    (front : List UInt8) :
    readRecords (front ++ packed records ++ back) records.length front.length = some records := by
  induction records generalizing front with
  | nil => rfl
  | cons entry rest ih =>
    obtain ⟨key, value⟩ := entry
    obtain ⟨hkey, hvalue⟩ := hsizes (key, value) List.mem_cons_self
    have hmiddle : front ++ packed ((key, value) :: rest) ++ back =
        front ++ record key value ++ (packed rest ++ back) := by simp
    have hrest := ih (fun other hother => hsizes other (List.mem_cons_of_mem _ hother))
      (front ++ record key value)
    have hfront : front ++ record key value ++ packed rest ++ back =
        front ++ record key value ++ (packed rest ++ back) := List.append_assoc _ _ _
    have hplace : (front ++ record key value).length =
        front.length + 8 + 8 + key.length + value.length := by
      rw [List.length_append, record_length]
      omega
    rw [hfront, hplace] at hrest
    obtain ⟨hksz, hvsz, hread, hvalueRead⟩ :=
      record_reads front (packed rest ++ back) hkey hvalue
    rw [hmiddle, List.length_cons]
    unfold readRecords
    simp only [hksz, hvsz, hread, hvalueRead, hrest, Option.bind_eq_bind, Option.bind_some]

private theorem chainRecords_holds {bucketSize : Nat} {file : ByteStore} {chain : Chain}
    {blocks : List Block} (hsize : bucketSize < 2 ^ 64)
    (hfits : ∀ block ∈ blocks, block.Fits bucketSize)
    (hholds : Holds bucketSize file chain blocks) (hlength : chain.length = blocks.length)
    (hloaded : ∀ bucket ∈ chain, bucket.isLoaded = true) :
    chainRecords chain = some (recordsOf blocks) := by
  induction chain generalizing blocks with
  | nil => rw [List.eq_nil_of_length_eq_zero hlength.symm]; rfl
  | cons bucket next ih =>
    cases blocks with
    | nil => exact absurd hlength (Nat.succ_ne_zero _)
    | cons block behind =>
      have hthere := hloaded bucket List.mem_cons_self
      have hfit := hfits block List.mem_cons_self
      have hread := readRecords_packed block.rest (hfit.sizes hsize) []
      have hcount : block.num.toNatClampNeg = block.records.length :=
        Int32.toNatClampNeg_ofNat_of_lt hfit.countable
      have hrest := ih (fun other hother => hfits other (List.mem_cons_of_mem _ hother)) hholds.2
        (Nat.succ.inj hlength) fun other hother => hloaded other (List.mem_cons_of_mem _ hother)
      unfold chainRecords
      simp only [hholds.1.str hthere, hholds.1.num hthere, hcount, Option.bind_eq_bind,
        Option.bind_some, hrest]
      have hblock : readRecords block.str block.records.length 0 = some block.records := hread
      rw [hblock, recordsOf_cons]
      rfl

theorem Attached.stored_eq (hdb : Attached hashFun db chains map) :
    db.stored db.directorySize =
      some (contents (2 ^ db.sfh.dpow) fun i => recordsOf (chains i)) := by
  have hprefix : ∀ size ≤ 2 ^ db.sfh.dpow,
      db.stored size = some (contents size fun i => recordsOf (chains i)) := by
    intro size
    induction size with
    | zero => exact fun _ => rfl
    | succ size ih =>
      intro hle
      obtain ⟨chain, hblocks, hlength, hloaded, hholds⟩ := hdb.blocks (Nat.lt_of_succ_le hle)
      have hrecords := chainRecords_holds hdb.layout.size
        (hdb.layout.fits size (Nat.lt_of_succ_le hle)) hholds hlength hloaded
      unfold HashDb.stored
      simp only [ih (Nat.le_of_succ_le hle), hblocks, hrecords, Option.bind_eq_bind,
        Option.bind_some]
      unfold contents
      rw [List.range_succ, List.flatMap_append, List.flatMap_singleton]
  rw [hdb.directory]
  exact hprefix _ (Nat.le_refl _)

theorem Attached.stored (hdb : Attached hashFun db chains map) :
    ∃ records, db.stored db.directorySize = some records ∧ records.Perm map :=
  ⟨_, hdb.stored_eq, hdb.layout.perm⟩

end Libsax.Db
