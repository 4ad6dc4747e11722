import Libsax.Db.HashDbRefines

/-! Insertion: a new record goes behind the records of the last block of its
chain, or into a block of its own behind that one. -/
namespace Libsax.Db

open Libsax.Lib

variable {hashFun : Key → UInt32} {db : HashDb} {chains : Nat → List Block} {map : Map}

theorem Layout.add {bucketSize dpow nBlock : Nat}
    (hlayout : Layout hashFun bucketSize dpow nBlock chains map) {idx depth : Nat}
    {block newBlock : Block} {key : Key} {value : Value}
    (hidx : idx < 2 ^ dpow) (hslot : slot hashFun dpow key = idx)
    (hblock : (chains idx)[depth]? = some block)
    (hnew : newBlock.records = block.records ++ [(key, value)]) (hfpos : newBlock.fpos = block.fpos)
    (hfits : newBlock.Fits bucketSize) (habsent : lookup map key = none) :
    Layout hashFun bucketSize dpow nBlock
      (Function.update chains idx ((chains idx).set depth newBlock)) ((key, value) :: map) := by
  obtain ⟨others, hold, hset⟩ := recordsOf_set hblock newBlock
  have hmore : (recordsOf ((chains idx).set depth newBlock)).Perm
      ((key, value) :: recordsOf (chains idx)) := by
    rw [hnew] at hset
    refine hset.trans (List.Perm.trans ?_ (hold.symm.cons _))
    rw [← List.cons_append]
    exact List.Perm.append_right others List.perm_append_comm
  have hperm := (contents_update_more hidx hmore).trans (hlayout.perm.cons _)
  refine hlayout.setBlock hidx hblock hfpos hfits ?_ hperm ?_
  · intro entry hentry
    rw [hnew] at hentry
    rcases List.mem_append.mp hentry with hmem | hmem
    · exact hlayout.slot_eq hidx hblock entry hmem
    · rw [List.mem_singleton.mp hmem]
      exact hslot
  · refine List.nodup_cons.mpr ⟨fun hmem => ?_, hlayout.distinct⟩
    obtain ⟨entry, hentry, hkey⟩ := List.mem_map.mp hmem
    exact lookup_eq_none.mp habsent entry hentry hkey

theorem Block.Fits.push {bucketSize : Nat} {block : Block} (hfits : block.Fits bucketSize)
    {key : Key} {value : Value} (hkey : key ≠ [])
    (hroom : (packed block.records).length + (record key value).length + 20 ≤ bucketSize)
    (hcount : block.records.length + 1 < 2 ^ 31) :
    ∃ newBlock : Block,
      poke block.str (packed block.records).length (record key value) = some newBlock.str ∧
      newBlock.fpos = block.fpos ∧ newBlock.records = block.records ++ [(key, value)] ∧
      newBlock.Fits bucketSize := by
  have hlength := hfits.length
  unfold Block.str BucketChain.blockSize at hlength
  rw [List.length_append] at hlength
  have hrest : (record key value).length ≤ block.rest.length := by omega
  have hpoke := @poke_record block.records _ _ _ hrest
  refine ⟨⟨block.fpos, block.records ++ [(key, value)], block.rest.drop (record key value).length⟩,
    hpoke, rfl, rfl, ?_, ?_, ?_, ?_, hfits.positive, hfits.bounded⟩
  · rw [packed_append, List.length_append, packed_cons, packed_nil, List.append_nil]
    omega
  · exact (poke_length hpoke).trans hfits.length
  · rw [List.length_append]
    exact hcount
  · intro entry hentry
    rcases List.mem_append.mp hentry with hmem | hmem
    · exact hfits.keyed entry hmem
    · rw [List.mem_singleton.mp hmem]
      exact hkey

theorem Attached.putRecord (hdb : Attached hashFun db chains map) {idx : Nat} {locn : Cursor}
    {bucket : BucketChain} {block : Block} {key : Key} {value : Value}
    (hidx : idx < 2 ^ db.sfh.dpow) (hslot : slot hashFun db.sfh.dpow key = idx)
    (hbucket : (db.entry idx)[locn.depth]? = some bucket)
    (hblock : (chains idx)[locn.depth]? = some block) (hloaded : bucket.isLoaded = true)
    (hp : locn.p = (packed block.records).length) (hkey : key ≠ [])
    (hroom : (packed block.records).length + (record key value).length + 20 ≤ db.sfh.bucketSize)
    (hcount : block.records.length + 1 < 2 ^ 31) (habsent : lookup map key = none) :
    ∃ next newBlock, db.putRecord idx locn key value = some next ∧ next.isOpen = db.isOpen ∧
      next.sfh = { db.sfh with numItems := next.sfh.numItems } ∧
      newBlock.records = block.records ++ [(key, value)] ∧
      Attached hashFun next (Function.update chains idx ((chains idx).set locn.depth newBlock))
        ((key, value) :: map) := by
  obtain ⟨other, hother, hshows⟩ := (hdb.holds idx hidx).getElem? hbucket
  rw [Option.some.inj (hother.symm.trans hblock)] at hshows
  have hfits := hdb.layout.fits idx hidx block (List.mem_of_getElem? hblock)
  obtain ⟨newBlock, hpoke, hfpos, hnew, hfitsNew⟩ := hfits.push hkey hroom hcount
  have hlayout := hdb.layout.add hidx hslot hblock hnew hfpos hfitsNew habsent
  have hnum : bucket.num + 1 = newBlock.num := by
    rw [hshows.num hloaded, Block.num, Block.num, hnew, List.length_append]
    exact (Int32.ofNat_add _ 1).symm
  have hitems : sizeAdd db.sfh.numItems 1 = ((key, value) :: map).length % 2 ^ 64 := by
    rw [hdb.count, List.length_cons]
    exact Nat.mod_add_mod _ _ _
  obtain ⟨dirtyPageNum, hdirty⟩ := setDirty_eq db bucket
  have hput : db.putRecord idx locn key value = some { db with
      sfh := { db.sfh with numItems := sizeAdd db.sfh.numItems 1 }
      entry := Function.update db.entry idx ((db.entry idx).set locn.depth { bucket with
        str := some newBlock.str
        num := newBlock.num
        isDirty := true })
      dirtyPageNum := dirtyPageNum } := by
    unfold HashDb.putRecord
    simp only [hbucket, Option.bind_eq_bind, Option.bind_some, hshows.str hloaded, hp, hpoke,
      hdirty, hnum]
  exact ⟨_, newBlock, hput, rfl, rfl, hnew,
    hdb.setBlock hidx hbucket hblock hloaded hfpos hlayout hitems dirtyPageNum⟩

def freshBlock (sfh : HashHeader) : Block :=
  { fpos := base sfh.dpow + sfh.bucketSize * sfh.nBlock
    records := []
    rest := List.replicate (BucketChain.blockSize sfh.bucketSize) 0 }

def HasPlace (sfh : HashHeader) : Prop :=
  base sfh.dpow + sfh.bucketSize * (sfh.nBlock + 1) ≤ 2 ^ 64

instance (sfh : HashHeader) : Decidable (HasPlace sfh) := by
  unfold HasPlace
  infer_instance

private theorem base_pos (dpow : Nat) : 0 < base dpow :=
  Nat.lt_of_lt_of_le (by decide) (Nat.le_add_right _ _)

private theorem freshBlock_fits {sfh : HashHeader} (hsize : 20 ≤ sfh.bucketSize)
    (hplace : HasPlace sfh) :
    (freshBlock sfh).Fits sfh.bucketSize := by
  unfold HasPlace at hplace
  rw [Nat.mul_succ] at hplace
  have hbase := base_pos sfh.dpow
  refine ⟨?_, ?_, ?_, List.forall_mem_nil _, ?_, ?_⟩
  · exact hsize
  · unfold Block.str freshBlock
    simp
  · exact Nat.two_pow_pos 31
  · exact Nat.lt_of_lt_of_le hbase (Nat.le_add_right _ _)
  · change base sfh.dpow + sfh.bucketSize * sfh.nBlock < 2 ^ 64
    omega

theorem Attached.allocateBlock (hdb : Attached hashFun db chains map)
    (hsize : 20 ≤ db.sfh.bucketSize) (hplace : HasPlace db.sfh) :
    ∃ activeNum dirtyPageNum bucket,
      db.allocateBlock = ({ db with
        sfh := { db.sfh with nBlock := db.sfh.nBlock + 1 }
        activeNum := activeNum
        dirtyPageNum := dirtyPageNum }, bucket) ∧
      bucket.fpos = (freshBlock db.sfh).fpos ∧ bucket.isLoaded = true ∧
      Shows db.sfh.bucketSize db.file bucket [] (freshBlock db.sfh) [] := by
  have hwithin := hplace
  unfold HasPlace at hwithin
  rw [Nat.mul_succ] at hwithin
  have hbase := base_pos db.sfh.dpow
  have hfpos : sizeAdd (HashHeader.size + 8 * db.directorySize)
      (db.sfh.bucketSize * db.sfh.nBlock) = (freshBlock db.sfh).fpos := by
    rw [hdb.directory]
    refine sizeAdd_eq ?_
    unfold base at hwithin hbase
    omega
  have hnBlock : sizeAdd db.sfh.nBlock 1 = db.sfh.nBlock + 1 := by
    have hmul := Nat.mul_le_mul_right db.sfh.nBlock hsize
    exact sizeAdd_eq (by omega)
  unfold HashDb.allocateBlock
  simp only [hfpos, hnBlock]
  refine ⟨_, _, _, rfl, rfl, rfl, rfl, fun _ => rfl, fun _ => rfl, fun _ _ => ⟨rfl, rfl⟩, ?_⟩
  exact fun hclean => nomatch hclean

theorem Attached.pushFresh (hdb : Attached hashFun db chains map) {idx : Nat}
    (hidx : idx < 2 ^ db.sfh.dpow) (hsize : 20 ≤ db.sfh.bucketSize) (hplace : HasPlace db.sfh)
    (chain : Chain) (bucketAddr : Nat → Nat) (activeNum dirtyPageNum : UInt32)
    (hholds : Holds db.sfh.bucketSize db.file chain (chains idx ++ [freshBlock db.sfh]))
    (haddr : ∀ i < 2 ^ db.sfh.dpow, bucketAddr i =
      link (Function.update chains idx (chains idx ++ [freshBlock db.sfh]) i)) :
    Attached hashFun { db with
      sfh := { db.sfh with nBlock := db.sfh.nBlock + 1 }
      entry := Function.update db.entry idx chain
      bucketAddr := bucketAddr
      activeNum := activeNum
      dirtyPageNum := dirtyPageNum }
      (Function.update chains idx (chains idx ++ [freshBlock db.sfh])) map := by
  have hlayout := hdb.layout.pushBlock hidx rfl rfl (freshBlock_fits hsize hplace) hplace
  refine { hdb with layout := hlayout, addr := haddr, holds := fun i hi => ?_ }
  by_cases heq : i = idx
  · subst heq
    simp only [Function.update_self]
    exact hholds
  · simp only [Function.update_of_ne heq]
    exact hdb.holds i hi

theorem Attached.firstBlock (hdb : Attached hashFun db chains map) {idx : Nat}
    (hidx : idx < 2 ^ db.sfh.dpow) (hsize : 20 ≤ db.sfh.bucketSize) (hplace : HasPlace db.sfh)
    (hnil : chains idx = []) :
    ∃ activeNum dirtyPageNum bucket,
      db.allocateBlock = ({ db with
        sfh := { db.sfh with nBlock := db.sfh.nBlock + 1 }
        activeNum := activeNum
        dirtyPageNum := dirtyPageNum }, bucket) ∧ bucket.isLoaded = true ∧
      Attached hashFun { db with
        sfh := { db.sfh with nBlock := db.sfh.nBlock + 1 }
        entry := Function.update db.entry idx [bucket]
        bucketAddr := Function.update db.bucketAddr idx bucket.fpos
        activeNum := activeNum
        dirtyPageNum := dirtyPageNum }
        (Function.update chains idx [freshBlock db.sfh]) map := by
  obtain ⟨activeNum, dirtyPageNum, bucket, hallocate, hfpos, hloaded, hshows⟩ :=
    hdb.allocateBlock hsize hplace
  refine ⟨activeNum, dirtyPageNum, bucket, hallocate, hloaded, ?_⟩
  have hpush := hdb.pushFresh hidx hsize hplace [bucket]
    (Function.update db.bucketAddr idx bucket.fpos) activeNum dirtyPageNum
  rw [hnil, List.nil_append] at hpush
  refine hpush ⟨hshows, trivial⟩ fun i hi => ?_
  by_cases heq : i = idx
  · subst heq
    rw [Function.update_self, Function.update_self, hfpos]
    rfl
  · rw [Function.update_of_ne heq, Function.update_of_ne heq]
    exact hdb.addr i hi

theorem Attached.nextBlock (hdb : Attached hashFun db chains map) {idx depth : Nat}
    {bucket : BucketChain} {block : Block} (hidx : idx < 2 ^ db.sfh.dpow)
    (hsize : 20 ≤ db.sfh.bucketSize) (hplace : HasPlace db.sfh)
    (hbucket : (db.entry idx)[depth]? = some bucket) (hblock : (chains idx)[depth]? = some block)
    (hloaded : bucket.isLoaded = true) (hlast : (db.entry idx).drop (depth + 1) = [])
    (hlastBlock : (chains idx).drop (depth + 1) = []) :
    ∃ activeNum dirtyPageNum chain fresh,
      db.nextBlock idx depth = some { db with
        sfh := { db.sfh with nBlock := db.sfh.nBlock + 1 }
        entry := Function.update db.entry idx chain
        activeNum := activeNum
        dirtyPageNum := dirtyPageNum } ∧
      chain[depth + 1]? = some fresh ∧ fresh.isLoaded = true ∧
      Attached hashFun { db with
        sfh := { db.sfh with nBlock := db.sfh.nBlock + 1 }
        entry := Function.update db.entry idx chain
        activeNum := activeNum
        dirtyPageNum := dirtyPageNum }
        (Function.update chains idx (chains idx ++ [freshBlock db.sfh])) map := by
  obtain ⟨dirtied, hdirty⟩ := setDirty_eq db bucket
  have hdbDirty : Attached hashFun { db with dirtyPageNum := dirtied } chains map :=
    hdb.memory db.activeNum dirtied hdb.holds
  obtain ⟨activeNum, dirtyPageNum, fresh, hallocate, hfpos, hfresh, hshows⟩ :=
    hdbDirty.allocateBlock hsize hplace
  have hchain := (split_at hbucket).1
  have hblocks := (split_at hblock).1
  rw [hlast] at hchain
  rw [hlastBlock] at hblocks
  have hset : (db.entry idx).set depth { bucket with isDirty := true } ++ [fresh] =
      (db.entry idx).take depth ++ [{ bucket with isDirty := true }, fresh] := by
    rw [set_at hbucket, hlast, List.append_assoc]
    rfl
  have hnext : db.nextBlock idx depth = some { db with
      sfh := { db.sfh with nBlock := db.sfh.nBlock + 1 }
      entry := Function.update db.entry idx
        ((db.entry idx).take depth ++ [{ bucket with isDirty := true }, fresh])
      activeNum := activeNum
      dirtyPageNum := dirtyPageNum } := by
    unfold HashDb.nextBlock
    simp only [hbucket, Option.bind_eq_bind, Option.bind_some, hlast, List.isEmpty_nil, if_true,
      hdirty, hallocate, hset]
  have hholds := hdb.holds idx hidx
  obtain ⟨other, hother, hold⟩ := hholds.getElem? hbucket
  rw [Option.some.inj (hother.symm.trans hblock), hlastBlock] at hold
  have hend : Holds db.sfh.bucketSize db.file [{ bucket with isDirty := true }, fresh]
      [block, freshBlock db.sfh] := by
    refine ⟨⟨hold.fpos, hold.str, hold.num, ?_, ?_⟩, hshows, trivial⟩
    · exact fun _ hnil => absurd hnil (List.cons_ne_nil _ _)
    intro hclean
    rw [hloaded] at hclean
    cases hclean
  have hfront : ((db.entry idx).take depth).length = ((chains idx).take depth).length :=
    (split_at hbucket).2.trans (split_at hblock).2.symm
  have hgrown : Holds db.sfh.bucketSize db.file
      ((db.entry idx).take depth ++ [{ bucket with isDirty := true }, fresh])
      (chains idx ++ [freshBlock db.sfh]) := by
    have hsplit : chains idx ++ [freshBlock db.sfh] =
        (chains idx).take depth ++ [block, freshBlock db.sfh] := by
      conv_lhs => rw [hblocks]
      rw [List.append_assoc]
      rfl
    rw [hsplit]
    rw [hchain, hblocks] at hholds
    exact hholds.append hfront (List.cons_ne_nil _ _) rfl hend
  have hpush := hdb.pushFresh hidx hsize hplace _ db.bucketAddr activeNum dirtyPageNum hgrown
  refine ⟨activeNum, dirtyPageNum, _, fresh, hnext, ?_, hfresh, hpush fun i hi => ?_⟩
  · have hlength := (split_at hbucket).2
    rw [List.getElem?_append_right (by omega), hlength, Nat.add_sub_cancel_left]
    rfl
  · by_cases heq : i = idx
    · subst heq
      rw [Function.update_self, hdb.addr i hi, hblocks]
      cases (chains i).take depth <;> rfl
    · rw [Function.update_of_ne heq]
      exact hdb.addr i hi

theorem lastPlace_eq {bucketSize ksize vsize : Nat} (hfit : 36 + ksize + vsize ≤ bucketSize)
    (hsize : bucketSize < 2 ^ 64) :
    HashDb.lastPlace bucketSize ksize vsize = bucketSize - (ksize + vsize + 36) := by
  unfold HashDb.lastPlace
  have hsum : sizeAdd ksize vsize = ksize + vsize := sizeAdd_eq (by omega)
  have hgap : sizeAdd (ksize + vsize) (8 + 4 + 3 * 8) = ksize + vsize + 36 := sizeAdd_eq (by omega)
  rw [hsum, hgap, sizeSub_eq (by omega)]

/-- The block that takes a record can count it, and a block that has to be
allocated for it has a place in the file. -/
def Room (sfh : HashHeader) (blocks : List Block) (key : Key) (value : Value) : Prop :=
  match blocks.getLast? with
  | none => HasPlace sfh
  | some block =>
    if (packed block.records).length > HashDb.lastPlace sfh.bucketSize key.length value.length then
      HasPlace sfh
    else block.records.length + 1 < 2 ^ 31

theorem Stop.Misses.last {bucketSize : Nat} {file : ByteStore} {key : Key} {blocks : List Block}
    {walk : Walk} {stop : Stop bucketSize file key blocks walk} (hmisses : stop.Misses) :
    walk.chain.drop (walk.locn.depth + 1) = [] ∧ blocks.drop (walk.locn.depth + 1) = [] := by
  obtain ⟨-, hafter, hback, -, -⟩ := hmisses
  have hblocks : blocks = stop.before ++ [stop.block] := by
    have hsplit := stop.split
    rwa [hafter] at hsplit
  have hlength : blocks.length = walk.locn.depth + 1 := by
    rw [stop.depth]
    have hlen := congrArg List.length hblocks
    rwa [List.length_append] at hlen
  refine ⟨?_, List.drop_eq_nil_of_le (Nat.le_of_eq hlength)⟩
  rw [stop.chain, hback, stop.depth, ← stop.length]
  exact List.drop_eq_nil_of_le (by simp)

private theorem fresh_count {sfh : HashHeader} : (freshBlock sfh).records.length + 1 < 2 ^ 31 := by
  have hnil : (freshBlock sfh).records.length = 0 := rfl
  rw [hnil]
  decide

private theorem fresh_room {sfh : HashHeader} {key : Key} {value : Value}
    (hfit : 36 + key.length + value.length ≤ sfh.bucketSize) :
    (packed (freshBlock sfh).records).length + (record key value).length + 20 ≤
      sfh.bucketSize := by
  have hnil : (packed (freshBlock sfh).records).length = 0 := rfl
  rw [record_length, hnil]
  omega

private theorem room_of_place {records : List (Key × Value)} {bucketSize : Nat} {key : Key}
    {value : Value}
    (hfit : 36 + key.length + value.length ≤ bucketSize) (hsize : bucketSize < 2 ^ 64)
    (hplace : ¬(packed records).length > HashDb.lastPlace bucketSize key.length value.length) :
    (packed records).length + (record key value).length + 20 ≤ bucketSize := by
  rw [lastPlace_eq hfit hsize] at hplace
  rw [record_length]
  omega

theorem Attached.addFirst (hdb : Attached hashFun db chains map) {key : Key} {value : Value}
    (hkey : key ≠ []) (hfit : 36 + key.length + value.length ≤ db.sfh.bucketSize)
    (hnil : chains (slot hashFun db.sfh.dpow key) = []) (hplace : HasPlace db.sfh)
    (habsent : lookup map key = none) :
    ∃ next newChains newBlock,
      db.addRecord (slot hashFun db.sfh.dpow key) none key value = some next ∧
      next.isOpen = db.isOpen ∧
      next.sfh = { db.sfh with
        nBlock := next.sfh.nBlock
        numItems := next.sfh.numItems } ∧
      newChains (slot hashFun db.sfh.dpow key) = [newBlock] ∧
      newBlock.records = [(key, value)] ∧
      Attached hashFun next newChains ((key, value) :: map) := by
  have hidx := slot_lt hashFun db.sfh.dpow key
  have haddr : db.bucketAddr (slot hashFun db.sfh.dpow key) = 0 := by
    rw [hdb.addr _ hidx, hnil]
    rfl
  obtain ⟨active, dirtied, bucket, hallocate, hloaded, hdbFirst⟩ :=
    hdb.firstBlock hidx (by omega) hplace hnil
  have hbucket : (Function.update db.entry (slot hashFun db.sfh.dpow key) [bucket]
      (slot hashFun db.sfh.dpow key))[(Cursor.mk 0 0).depth]? = some bucket := by
    rw [Function.update_self]
    rfl
  have hblock : (Function.update chains (slot hashFun db.sfh.dpow key) [freshBlock db.sfh]
      (slot hashFun db.sfh.dpow key))[(Cursor.mk 0 0).depth]? = some (freshBlock db.sfh) := by
    rw [Function.update_self]
    rfl
  obtain ⟨next, newBlock, hput, hstill, hsfh, hnew, hnext⟩ :=
    hdbFirst.putRecord hidx rfl hbucket hblock hloaded rfl hkey (fresh_room hfit)
      fresh_count habsent
  refine ⟨next, _, newBlock, ?_, hstill, ?_, ?_, hnew, hnext⟩
  · unfold HashDb.addRecord
    simp only [haddr, if_true, hallocate]
    exact hput
  · rw [hsfh]
  · simp only [Function.update_self]
    rfl

/-- A cursor behind the records of the last block of a chain. -/
structure AtEnd (db : HashDb) (idx : Nat) (blocks : List Block) (locn : Cursor)
    (bucket : BucketChain) (block : Block) : Prop where
  inMemory : (db.entry idx)[locn.depth]? = some bucket
  meant : blocks[locn.depth]? = some block
  loaded : bucket.isLoaded = true
  last : (db.entry idx).drop (locn.depth + 1) = []
  lastBlock : blocks.drop (locn.depth + 1) = []
  p : locn.p = (packed block.records).length

theorem AtEnd.length {idx : Nat} {blocks : List Block} {locn : Cursor} {bucket : BucketChain}
    {block : Block} (hend : AtEnd db idx blocks locn bucket block) :
    blocks.length = locn.depth + 1 := by
  have hlt := (List.getElem?_eq_some_iff.mp hend.meant).1
  have hle := List.drop_eq_nil_iff.mp hend.lastBlock
  omega

theorem AtEnd.getLast? {idx : Nat} {blocks : List Block} {locn : Cursor} {bucket : BucketChain}
    {block : Block} (hend : AtEnd db idx blocks locn bucket block) :
    blocks.getLast? = some block := by
  rw [List.getLast?_eq_getElem?, hend.length]
  exact hend.meant

theorem Attached.addLast (hdb : Attached hashFun db chains map) {key : Key} {value : Value}
    {locn : Cursor} {bucket : BucketChain} {block : Block}
    (hkey : key ≠ []) (hfit : 36 + key.length + value.length ≤ db.sfh.bucketSize)
    (hend : AtEnd db (slot hashFun db.sfh.dpow key) (chains (slot hashFun db.sfh.dpow key)) locn
      bucket block)
    (hroom : Room db.sfh (chains (slot hashFun db.sfh.dpow key)) key value)
    (habsent : lookup map key = none) :
    ∃ next newChains,
      db.addRecord (slot hashFun db.sfh.dpow key) (some locn) key value = some next ∧
      next.isOpen = db.isOpen ∧ Attached hashFun next newChains ((key, value) :: map) := by
  have hidx := slot_lt hashFun db.sfh.dpow key
  have hplaceEq := lastPlace_eq hfit hdb.layout.size
  unfold Room at hroom
  simp only [hend.getLast?] at hroom
  unfold HashDb.addRecord
  rw [← hend.p] at hroom
  split_ifs at hroom with hfull
  · obtain ⟨active, dirtied, chain, fresh, hnextBlock, hfresh, hfreshLoaded, hdbNext⟩ :=
      hdb.nextBlock hidx (by omega) hroom hend.inMemory hend.meant hend.loaded hend.last
        hend.lastBlock
    have hbucketNew : (Function.update db.entry (slot hashFun db.sfh.dpow key) chain
        (slot hashFun db.sfh.dpow key))[(Cursor.mk (locn.depth + 1) 0).depth]? = some fresh := by
      rw [Function.update_self]
      exact hfresh
    have hblockNew : (Function.update chains (slot hashFun db.sfh.dpow key)
        (chains (slot hashFun db.sfh.dpow key) ++ [freshBlock db.sfh])
        (slot hashFun db.sfh.dpow key))[(Cursor.mk (locn.depth + 1) 0).depth]? =
        some (freshBlock db.sfh) := by
      rw [Function.update_self, List.getElem?_append_right (Nat.le_of_eq hend.length), hend.length,
        Nat.sub_self]
      rfl
    obtain ⟨next, newBlock, hput, hstill, -, -, hnext⟩ :=
      hdbNext.putRecord hidx rfl hbucketNew hblockNew hfreshLoaded rfl hkey (fresh_room hfit)
        fresh_count habsent
    refine ⟨next, _, ?_, hstill, hnext⟩
    simp only [if_pos hfull, hnextBlock, Option.bind_eq_bind, Option.bind_some]
    exact hput
  · obtain ⟨next, newBlock, hput, hstill, -, -, hnext⟩ :=
      hdb.putRecord hidx rfl hend.inMemory hend.meant hend.loaded hend.p hkey
        (room_of_place hfit hdb.layout.size (hend.p ▸ hfull)) hroom habsent
    refine ⟨next, _, ?_, hstill, hnext⟩
    simp only [if_neg hfull]
    exact hput

/-- `insert` finds the key, or adds the record where the search for it ended. -/
theorem Attached.insert_cases (hdb : Attached hashFun db chains map) (hopen : db.isOpen = true)
    (key : Key) (value : Value) :
    ((lookup map key).isSome = true ∧
      ∃ next, HashDb.insert hashFun db key value = some (next, false) ∧ next.isOpen = true ∧
        next.sfh = db.sfh ∧ Attached hashFun next chains map) ∨
    (lookup map key = none ∧
      ∃ searched locn,
        HashDb.insert hashFun db key value =
          (searched.addRecord (slot hashFun db.sfh.dpow key) locn key value).map (·, true) ∧
        searched.isOpen = true ∧ searched.sfh = db.sfh ∧ Attached hashFun searched chains map ∧
        (locn = none ∧ chains (slot hashFun db.sfh.dpow key) = [] ∨
          ∃ place bucket block, locn = some place ∧
            AtEnd searched (slot hashFun db.sfh.dpow key) (chains (slot hashFun db.sfh.dpow key))
              place bucket block)) := by
  have hlookup := hdb.layout.lookup_eq key
  obtain ⟨file, entry, activeNum, dirtyPageNum, hflush, hdbFlushed⟩ := hdb.flushCache
  rw [hflush] at hdbFlushed
  unfold HashDb.insert
  rw [if_neg (not_closed hopen), hflush]
  rcases hdbFlushed.search_ hopen key with
    ⟨hnil, hsearch⟩ | ⟨walk, active, hsearch, hdbNew, stop, hfinds | hmisses⟩
  · have hchain : chains (slot hashFun db.sfh.dpow key) = [] := hnil
    have hindex := hdbFlushed.index_eq key
    have habsent : lookup map key = none := by
      rw [hlookup, hchain]
      rfl
    refine Or.inr ⟨habsent, { db with
      file := file
      entry := entry
      activeNum := activeNum
      dirtyPageNum := dirtyPageNum }, none, ?_, hopen, rfl, hdbFlushed, Or.inl ⟨rfl, hchain⟩⟩
    rw [hsearch]
    simp only [Option.bind_eq_bind, Option.bind_some, Bool.false_eq_true, if_false, hindex]
    exact Option.map_eq_bind.symm
  · obtain ⟨hfound, left, value', right, hrecords, hleft, -⟩ := hfinds
    have hsome := hlookup.trans (stop.lookup_found hrecords hleft)
    rw [hsome, hsearch]
    simp only [Option.bind_eq_bind, Option.bind_some, hfound, if_true]
    exact Or.inl ⟨rfl, { db with
      file := file
      entry := Function.update entry (slot hashFun db.sfh.dpow key) walk.chain
      activeNum := active
      dirtyPageNum := dirtyPageNum }, rfl, hopen, rfl, hdbNew⟩
  · have hindex := hdbNew.index_eq key
    have habsent := hlookup.trans (stop.lookup_missed hmisses)
    obtain ⟨hlast, hlastBlock⟩ := hmisses.last
    refine Or.inr ⟨habsent, { db with
      file := file
      entry := Function.update entry (slot hashFun db.sfh.dpow key) walk.chain
      activeNum := active
      dirtyPageNum := dirtyPageNum }, some walk.locn, ?_, hopen, rfl, hdbNew,
      Or.inr ⟨walk.locn, stop.bucket, stop.block, rfl, ?_⟩⟩
    · rw [hsearch]
      simp only [Option.bind_eq_bind, Option.bind_some, hmisses.1, Bool.false_eq_true, if_false,
        hindex]
      exact Option.map_eq_bind.symm
    · refine ⟨?_, stop.block_eq, stop.loaded, ?_, hlastBlock, hmisses.2.2.2.2⟩
      · simp only [Function.update_self]
        exact stop.bucket_eq
      · simp only [Function.update_self]
        exact hlast

theorem Attached.insert (hdb : Attached hashFun db chains map) (hopen : db.isOpen = true)
    {key : Key} {value : Value} (hkey : key ≠ [])
    (hfit : 36 + key.length + value.length ≤ db.sfh.bucketSize)
    (hroom : lookup map key = none →
      Room db.sfh (chains (slot hashFun db.sfh.dpow key)) key value) :
    ∃ next newChains,
      HashDb.insert hashFun db key value = some (next, (lookup map key).isNone) ∧
      next.isOpen = true ∧
      Attached hashFun next newChains
        (if (lookup map key).isNone then (key, value) :: map else map) := by
  rcases hdb.insert_cases hopen key value with
    ⟨hpresent, next, hinsert, hstill, -, hnext⟩ |
      ⟨habsent, searched, locn, hinsert, hstill, hsfh, hdbNew, hplace⟩
  · have hsome : (lookup map key).isNone = false := by
      rw [Option.isNone_eq_false_iff]
      exact hpresent
    rw [hsome]
    exact ⟨next, chains, hinsert, hstill, hnext⟩
  · rw [habsent, hinsert]
    have hneeded := hroom habsent
    rw [← hsfh] at hfit hplace hneeded ⊢
    have hadd : ∃ next newChains,
        searched.addRecord (slot hashFun searched.sfh.dpow key) locn key value = some next ∧
        next.isOpen = searched.isOpen ∧ Attached hashFun next newChains ((key, value) :: map) := by
      rcases hplace with ⟨rfl, hnil⟩ | ⟨place, bucket, block, rfl, hend⟩
      · rw [hnil] at hneeded
        obtain ⟨next, newChains, -, hadd, hopenNext, -, -, -, hnext⟩ :=
          hdbNew.addFirst hkey hfit hnil hneeded habsent
        exact ⟨next, newChains, hadd, hopenNext, hnext⟩
      · exact hdbNew.addLast hkey hfit hend hneeded habsent
    obtain ⟨next, newChains, hadd, hopenNext, hnext⟩ := hadd
    exact ⟨next, newChains, by rw [hadd]; rfl, hopenNext.trans hstill, hnext⟩

end Libsax.Db
