import Libsax.Db.HashDbSearch

/-! Insertions and deletions change the chains as they change the map. -/
namespace Libsax.Db

open Libsax.Lib

variable {hashFun : Key → UInt32} {db : HashDb} {chains : Nat → List Block} {map : Map}

namespace Layout

variable {bucketSize dpow nBlock : Nat}

private theorem withChain (hlayout : Layout hashFun bucketSize dpow nBlock chains map)
    {idx more : Nat}
    {blocks : List Block} {newMap : Map} (hmore : nBlock ≤ more) (hlt : more < 2 ^ 64)
    (hwithin : base dpow + bucketSize * more ≤ 2 ^ 64)
    (hfits : ∀ block ∈ blocks, block.Fits bucketSize)
    (hplaced : ∀ block ∈ blocks, ∃ k < more, block.fpos = base dpow + bucketSize * k)
    (hapart : (contents (2 ^ dpow) (Function.update (fun i => (chains i).map Block.fpos) idx
      (blocks.map Block.fpos))).Nodup)
    (hfiled : ∀ entry ∈ recordsOf blocks, slot hashFun dpow entry.1 = idx)
    (hperm : (contents (2 ^ dpow) (Function.update (fun i => recordsOf (chains i)) idx
      (recordsOf blocks))).Perm newMap)
    (hdistinct : (newMap.map Prod.fst).Nodup) :
    Layout hashFun bucketSize dpow more (Function.update chains idx blocks) newMap := by
  have hpositions : (fun i => (Function.update chains idx blocks i).map Block.fpos) =
      Function.update (fun i => (chains i).map Block.fpos) idx (blocks.map Block.fpos) :=
    Function.comp_update (List.map Block.fpos) chains idx blocks
  have hrecords : (fun i => recordsOf (Function.update chains idx blocks i)) =
      Function.update (fun i => recordsOf (chains i)) idx (recordsOf blocks) :=
    Function.comp_update recordsOf chains idx blocks
  refine ⟨hlayout.size, hlayout.degree, hlt, hwithin, ?_, ?_, ?_, ?_, ?_, hdistinct⟩
  · intro i hi block hblock
    by_cases heq : i = idx
    · subst heq
      rw [Function.update_self] at hblock
      exact hfits block hblock
    · rw [Function.update_of_ne heq] at hblock
      exact hlayout.fits i hi block hblock
  · intro i hi block hblock
    by_cases heq : i = idx
    · subst heq
      rw [Function.update_self] at hblock
      exact hplaced block hblock
    · rw [Function.update_of_ne heq] at hblock
      obtain ⟨k, hk, hplace⟩ := hlayout.placed i hi block hblock
      exact ⟨k, Nat.lt_of_lt_of_le hk hmore, hplace⟩
  · rw [hpositions]
    exact hapart
  · rw [hrecords]
    exact hlayout.filed.update hfiled
  · rw [hrecords]
    exact hperm

theorem setBlock (hlayout : Layout hashFun bucketSize dpow nBlock chains map) {idx depth : Nat}
    {block newBlock : Block} {newMap : Map} (hidx : idx < 2 ^ dpow)
    (hblock : (chains idx)[depth]? = some block) (hfpos : newBlock.fpos = block.fpos)
    (hfits : newBlock.Fits bucketSize)
    (hfiled : ∀ entry ∈ newBlock.records, slot hashFun dpow entry.1 = idx)
    (hperm : (contents (2 ^ dpow) (Function.update (fun i => recordsOf (chains i)) idx
      (recordsOf ((chains idx).set depth newBlock)))).Perm newMap)
    (hdistinct : (newMap.map Prod.fst).Nodup) :
    Layout hashFun bucketSize dpow nBlock
      (Function.update chains idx ((chains idx).set depth newBlock)) newMap := by
  have hpositions : ((chains idx).set depth newBlock).map Block.fpos =
      (chains idx).map Block.fpos := by
    apply List.ext_getElem?
    intro n
    rw [List.getElem?_map, List.getElem?_map, List.getElem?_set]
    by_cases heq : depth = n
    · subst heq
      rw [if_pos rfl, if_pos (List.getElem?_eq_some_iff.mp hblock).1, hblock, Option.map_some,
        Option.map_some, hfpos]
    · rw [if_neg heq]
  have hmem : ∀ other ∈ (chains idx).set depth newBlock, other = newBlock ∨ other ∈ chains idx :=
    fun other hother => (List.mem_or_eq_of_mem_set hother).symm
  refine hlayout.withChain (Nat.le_refl _) hlayout.blocks hlayout.within ?_ ?_ ?_ ?_ hperm hdistinct
  · intro other hother
    rcases hmem other hother with rfl | hold
    · exact hfits
    · exact hlayout.fits idx hidx other hold
  · intro other hother
    rcases hmem other hother with rfl | hold
    · rw [hfpos]
      exact hlayout.placed idx hidx block (List.mem_of_getElem? hblock)
    · exact hlayout.placed idx hidx other hold
  · rw [hpositions, Function.update_eq_self idx fun i => (chains i).map Block.fpos]
    exact hlayout.apart
  · intro entry hentry
    obtain ⟨other, hother, hrecord⟩ := List.mem_flatMap.mp hentry
    rcases hmem other hother with rfl | hold
    · exact hfiled entry hrecord
    · exact hlayout.filed idx hidx entry (List.mem_flatMap.mpr ⟨other, hold, hrecord⟩)

theorem pushBlock (hlayout : Layout hashFun bucketSize dpow nBlock chains map) {idx : Nat}
    {newBlock : Block} (hidx : idx < 2 ^ dpow) (hfpos : newBlock.fpos = base dpow + bucketSize * nBlock)
    (hrecords : newBlock.records = []) (hfits : newBlock.Fits bucketSize)
    (hwithin : base dpow + bucketSize * (nBlock + 1) ≤ 2 ^ 64) :
    Layout hashFun bucketSize dpow (nBlock + 1)
      (Function.update chains idx (chains idx ++ [newBlock])) map := by
  have hpositive : 0 < bucketSize := Nat.lt_of_lt_of_le (by decide) (Nat.le_trans
    (Nat.le_add_left 20 _) hfits.room)
  have hlt : nBlock + 1 < 2 ^ 64 := by
    have hbase : 0 < base dpow := Nat.lt_of_lt_of_le (by decide) (Nat.le_add_right _ _)
    have hmul := Nat.le_mul_of_pos_left (nBlock + 1) hpositive
    omega
  have hsame : recordsOf (chains idx ++ [newBlock]) = recordsOf (chains idx) := by
    rw [recordsOf_append, recordsOf_cons, hrecords]
    simp [recordsOf]
  have hmem : ∀ other ∈ chains idx ++ [newBlock], other ∈ chains idx ∨ other = newBlock :=
    fun other hother => (List.mem_append.mp hother).imp_right List.mem_singleton.mp
  refine hlayout.withChain (Nat.le_succ _) hlt hwithin ?_ ?_ ?_ ?_ ?_ hlayout.distinct
  · intro other hother
    rcases hmem other hother with hold | rfl
    · exact hlayout.fits idx hidx other hold
    · exact hfits
  · intro other hother
    rcases hmem other hother with hold | rfl
    · obtain ⟨k, hk, hplace⟩ := hlayout.placed idx hidx other hold
      exact ⟨k, Nat.lt_succ_of_lt hk, hplace⟩
    · exact ⟨nBlock, Nat.lt_succ_self _, hfpos⟩
  · have hmore : ((chains idx ++ [newBlock]).map Block.fpos).Perm
        (newBlock.fpos :: (chains idx).map Block.fpos) := by
      rw [List.map_append]
      exact List.perm_append_comm
    refine (contents_update_more hidx hmore).nodup_iff.mpr
      (List.nodup_cons.mpr ⟨fun hold => ?_, hlayout.apart⟩)
    obtain ⟨i, hi, hpos⟩ := mem_contents.mp hold
    obtain ⟨block, hblock, hplace⟩ := List.mem_map.mp hpos
    obtain ⟨k, hk, hbase⟩ := hlayout.placed i hi block hblock
    have hless := Nat.mul_lt_mul_of_pos_left hk hpositive
    omega
  · rw [hsame]
    exact hlayout.filed idx hidx
  · rw [hsame, Function.update_eq_self idx fun i => recordsOf (chains i)]
    exact hlayout.perm

end Layout

theorem recordsOf_set {blocks : List Block} {depth : Nat} {block : Block}
    (hblock : blocks[depth]? = some block) (newBlock : Block) :
    ∃ others, (recordsOf blocks).Perm (block.records ++ others) ∧
      (recordsOf (blocks.set depth newBlock)).Perm (newBlock.records ++ others) := by
  have hsplit : ∀ middle : Block,
      (recordsOf (blocks.take depth ++ middle :: blocks.drop (depth + 1))).Perm
        (middle.records ++ (recordsOf (blocks.take depth) ++ recordsOf (blocks.drop (depth + 1)))) := by
    intro middle
    rw [recordsOf_append, recordsOf_cons]
    exact List.perm_append_comm_assoc _ _ _
  refine ⟨recordsOf (blocks.take depth) ++ recordsOf (blocks.drop (depth + 1)), ?_, ?_⟩
  · have hperm := hsplit block
    rwa [← (split_at hblock).1] at hperm
  · rw [set_at hblock]
    exact hsplit newBlock

private theorem link_set {blocks : List Block} {depth : Nat} {block newBlock : Block}
    (hblock : blocks[depth]? = some block) (hfpos : newBlock.fpos = block.fpos) :
    link (blocks.set depth newBlock) = link blocks := by
  cases blocks with
  | nil => rfl
  | cons first behind =>
    cases depth with
    | zero =>
      cases hblock
      exact hfpos
    | succ depth => rfl

theorem Attached.setBlock (hdb : Attached hashFun db chains map) {idx depth numItems : Nat}
    {bucket : BucketChain} {block newBlock : Block} {newMap : Map} (hidx : idx < 2 ^ db.sfh.dpow)
    (hbucket : (db.entry idx)[depth]? = some bucket) (hblock : (chains idx)[depth]? = some block)
    (hloaded : bucket.isLoaded = true) (hfpos : newBlock.fpos = block.fpos)
    (hlayout : Layout hashFun db.sfh.bucketSize db.sfh.dpow db.sfh.nBlock
      (Function.update chains idx ((chains idx).set depth newBlock)) newMap)
    (hcount : numItems = newMap.length % 2 ^ 64) (dirtyPageNum : UInt32) :
    Attached hashFun { db with
      sfh := { db.sfh with numItems := numItems }
      entry := Function.update db.entry idx ((db.entry idx).set depth { bucket with
        str := some newBlock.str
        num := newBlock.num
        isDirty := true })
      dirtyPageNum := dirtyPageNum }
      (Function.update chains idx ((chains idx).set depth newBlock)) newMap := by
  refine { hdb with layout := hlayout, count := hcount, addr := ?_, holds := ?_ }
  · intro i hi
    by_cases heq : i = idx
    · subst heq
      rw [Function.update_self, link_set hblock hfpos]
      exact hdb.addr i hi
    · rw [Function.update_of_ne heq]
      exact hdb.addr i hi
  · intro i hi
    by_cases heq : i = idx
    · subst heq
      have hholds := hdb.holds i hi
      obtain ⟨other, hother, hshows⟩ := hholds.getElem? hbucket
      have hsame : block = other := Option.some.inj (hblock.symm.trans hother)
      simp only [Function.update_self]
      refine hholds.set hbucket hblock hfpos ⟨?_, fun _ => rfl, fun _ => rfl, ?_, ?_⟩
      · exact hshows.fpos.trans ((congrArg Block.fpos hsame).symm.trans hfpos.symm)
      · exact fun _ => hshows.last hloaded
      · intro hclean
        rw [hloaded] at hclean
        cases hclean
    · simp only [Function.update_of_ne heq]
      exact hdb.holds i hi

theorem setDirty_eq (db : HashDb) (bucket : BucketChain) :
    ∃ dirtyPageNum, db.setDirty bucket =
      ({ db with dirtyPageNum := dirtyPageNum }, { bucket with isDirty := true }) := by
  unfold HashDb.setDirty
  split_ifs with hdirty
  · refine ⟨db.dirtyPageNum, ?_⟩
    rw [← hdirty]
  · exact ⟨_, rfl⟩

theorem Layout.slot_eq {bucketSize dpow nBlock : Nat}
    (hlayout : Layout hashFun bucketSize dpow nBlock chains map) {idx depth : Nat} {block : Block}
    (hidx : idx < 2 ^ dpow) (hblock : (chains idx)[depth]? = some block) :
    ∀ entry ∈ block.records, slot hashFun dpow entry.1 = idx := by
  intro entry hentry
  exact hlayout.filed idx hidx entry
    (List.mem_flatMap.mpr ⟨block, List.mem_of_getElem? hblock, hentry⟩)

theorem Layout.remove {bucketSize dpow nBlock : Nat}
    (hlayout : Layout hashFun bucketSize dpow nBlock chains map) {idx depth : Nat}
    {block newBlock : Block} {left right : List (Key × Value)} {key : Key} {value : Value}
    (hidx : idx < 2 ^ dpow) (hblock : (chains idx)[depth]? = some block)
    (hrecords : block.records = left ++ (key, value) :: right)
    (hnew : newBlock.records = left ++ right) (hfpos : newBlock.fpos = block.fpos)
    (hfits : newBlock.Fits bucketSize) :
    map.length = (without map key).length + 1 ∧
    Layout hashFun bucketSize dpow nBlock
      (Function.update chains idx ((chains idx).set depth newBlock)) (without map key) := by
  obtain ⟨others, hold, hset⟩ := recordsOf_set hblock newBlock
  have hless : (recordsOf (chains idx)).Perm
      ((key, value) :: recordsOf ((chains idx).set depth newBlock)) := by
    rw [hrecords] at hold
    rw [hnew] at hset
    refine hold.trans (List.Perm.trans ?_ (hset.symm.cons _))
    exact List.perm_middle.append_right others
  have hcut := hlayout.perm.symm.trans
    (contents_update_less hidx hless)
  have hwithout := perm_without hlayout.distinct hcut
  refine ⟨?_, hlayout.setBlock hidx hblock hfpos hfits ?_ hwithout ?_⟩
  · rw [hcut.length_eq, List.length_cons, hwithout.length_eq]
  · intro entry hentry
    refine hlayout.slot_eq hidx hblock entry ?_
    rw [hnew] at hentry
    rw [hrecords]
    exact (List.mem_append.mp hentry).elim (List.mem_append_left _)
      fun hright => List.mem_append_right _ (List.mem_cons_of_mem _ hright)
  · exact hlayout.distinct.sublist (List.filter_sublist.map Prod.fst)

theorem Block.Fits.closeGap {bucketSize : Nat} {block : Block} (hfits : block.Fits bucketSize)
    (hsize : bucketSize < 2 ^ 64) {left right : List (Key × Value)} {key : Key} {value : Value}
    (hrecords : block.records = left ++ (key, value) :: right) :
    ∃ newBlock : Block,
      Db.closeGap bucketSize block.str (packed left).length = some newBlock.str ∧
      newBlock.fpos = block.fpos ∧ newBlock.records = left ++ right ∧
      newBlock.Fits bucketSize := by
  have hroom := hfits.room
  have hlength := hfits.length
  have hstr : block.str = packed (left ++ (key, value) :: right) ++ block.rest := by
    unfold Block.str
    rw [hrecords]
  have hmiddle : block.str = packed left ++ record key value ++ (packed right ++ block.rest) := by
    rw [hstr]
    simp
  have hsizes := hfits.sizes hsize (key, value) (by rw [hrecords]; simp)
  have hkey : key.length < 2 ^ 64 := hsizes.1
  have hvalue : value.length < 2 ^ 64 := hsizes.2
  obtain ⟨hksz, hvsz, -, -⟩ :=
    record_reads (packed left) (packed right ++ block.rest) hkey hvalue
  rw [← hmiddle] at hksz hvsz
  rw [hstr, List.length_append] at hlength
  unfold BucketChain.blockSize at hlength
  rw [hrecords] at hroom
  simp only [packed_append, packed_cons, List.length_append, record_length] at hroom hlength
  have hleftSize : sizeSub (sizeSub bucketSize (2 * 8 + key.length + value.length))
      ((packed left).length + 8 + 8) =
      bucketSize - 16 - (record key value).length - (packed left).length := by
    have hinner : sizeSub bucketSize (2 * 8 + key.length + value.length) =
        bucketSize - (2 * 8 + key.length + value.length) := sizeSub_eq (by omega)
    rw [hinner, sizeSub_eq (by omega), record_length]
    omega
  have hfrom : (packed left).length + 8 + 8 + key.length + value.length =
      (packed left).length + (record key value).length := by
    rw [record_length]
    omega
  have hto : (packed left).length + 8 + 8 - 2 * 8 = (packed left).length := by omega
  have hright : (packed right).length ≤
      bucketSize - 16 - (record key value).length - (packed left).length := by
    rw [record_length]
    omega
  have hrest : bucketSize - 16 - (record key value).length - (packed left).length ≤
      (packed right ++ block.rest).length := by
    rw [record_length, List.length_append]
    omega
  obtain ⟨moved, rest', hpeek, hpoke⟩ := move_over left right block.rest key value hright hrest
  rw [← hstr] at hpeek hpoke
  have hgap : Db.closeGap bucketSize block.str (packed left).length =
      some (packed (left ++ right) ++ rest') := by
    unfold Db.closeGap
    simp only [hksz, hvsz, Option.bind_eq_bind, Option.bind_some]
    rw [hleftSize, hfrom, hto, hpeek, Option.bind_some, hpoke]
  refine ⟨⟨block.fpos, left ++ right, rest'⟩, hgap, rfl, rfl, ?_, ?_, ?_, ?_,
    hfits.positive, hfits.bounded⟩
  · simp only [packed_append, List.length_append]
    omega
  · exact (poke_length hpoke).trans hfits.length
  · have hcount := hfits.countable
    rw [hrecords, List.length_append, List.length_cons] at hcount
    simp only [List.length_append]
    omega
  · intro entry hentry
    refine hfits.keyed entry ?_
    rw [hrecords]
    exact (List.mem_append.mp hentry).elim (List.mem_append_left _)
      fun hright => List.mem_append_right _ (List.mem_cons_of_mem _ hright)

@[simp] private theorem int32_ofNat_pred (n : Nat) : Int32.ofNat (n + 1) - 1 = Int32.ofNat n := by
  rw [Int32.ofNat_add]
  exact Int32.add_sub_cancel _ _

theorem Attached.cutRecord (hdb : Attached hashFun db chains map) {idx : Nat} {locn : Cursor}
    {bucket : BucketChain} {block : Block} {left right : List (Key × Value)} {key : Key}
    {value : Value} (hidx : idx < 2 ^ db.sfh.dpow)
    (hbucket : (db.entry idx)[locn.depth]? = some bucket)
    (hblock : (chains idx)[locn.depth]? = some block) (hloaded : bucket.isLoaded = true)
    (hp : locn.p = (packed left).length)
    (hrecords : block.records = left ++ (key, value) :: right) :
    ∃ next newChains, db.cutRecord idx locn = some next ∧ next.isOpen = db.isOpen ∧
      Attached hashFun next newChains (without map key) := by
  obtain ⟨other, hother, hshows⟩ := (hdb.holds idx hidx).getElem? hbucket
  rw [Option.some.inj (hother.symm.trans hblock)] at hshows
  have hfits := hdb.layout.fits idx hidx block (List.mem_of_getElem? hblock)
  obtain ⟨newBlock, hgap, hfpos, hnew, hfitsNew⟩ := hfits.closeGap hdb.layout.size hrecords
  obtain ⟨hlength, hlayout⟩ := hdb.layout.remove hidx hblock hrecords hnew hfpos hfitsNew
  have hnum : bucket.num - 1 = newBlock.num := by
    rw [hshows.num hloaded, Block.num, Block.num, hrecords, hnew, List.length_append,
      List.length_append, List.length_cons, ← Nat.add_assoc, int32_ofNat_pred]
  have hitems : sizeSub db.sfh.numItems 1 = (without map key).length % 2 ^ 64 := by
    have hlt := hdb.layout.map_length_lt
    rw [hdb.count, Nat.mod_eq_of_lt hlt, sizeSub_eq (by omega), hlength, Nat.add_sub_cancel]
    exact (Nat.mod_eq_of_lt (by omega)).symm
  obtain ⟨dirtyPageNum, hdirty⟩ :=
    setDirty_eq db { bucket with str := some newBlock.str, num := newBlock.num }
  have hcut : db.cutRecord idx locn = some { db with
      sfh := { db.sfh with numItems := sizeSub db.sfh.numItems 1 }
      entry := Function.update db.entry idx ((db.entry idx).set locn.depth { bucket with
        str := some newBlock.str
        num := newBlock.num
        isDirty := true })
      dirtyPageNum := dirtyPageNum } := by
    unfold HashDb.cutRecord
    simp only [hbucket, Option.bind_eq_bind, Option.bind_some, hshows.str hloaded, hp, hgap, hnum,
      hdirty]
  exact ⟨_, _, hcut, rfl, hdb.setBlock hidx hbucket hblock hloaded hfpos hlayout hitems
    dirtyPageNum⟩

theorem Attached.del (hdb : Attached hashFun db chains map) (hopen : db.isOpen = true)
    (key : Key) :
    ∃ next newChains,
      HashDb.del hashFun db key = some (next, (lookup map key).isSome) ∧
      next.isOpen = true ∧ Attached hashFun next newChains (without map key) := by
  have hlookup := hdb.layout.lookup_eq key
  have hidx := slot_lt hashFun db.sfh.dpow key
  unfold HashDb.del
  rw [if_neg (not_closed hopen)]
  rcases hdb.search_ hopen key with
    ⟨hnil, hsearch⟩ | ⟨walk, activeNum, hsearch, hdbNew, stop, hfinds | hmisses⟩
  · rw [hnil] at hlookup
    rw [without_of_absent hlookup, hsearch, hlookup]
    exact ⟨db, chains, rfl, hopen, hdb⟩
  · obtain ⟨hfound, left, value, right, hrecords, hleft, hp⟩ := hfinds
    have hindex := hdbNew.index_eq key
    have hbucket : (Function.update db.entry (slot hashFun db.sfh.dpow key) walk.chain
        (slot hashFun db.sfh.dpow key))[walk.locn.depth]? = some stop.bucket := by
      rw [Function.update_self]
      exact stop.bucket_eq
    obtain ⟨next, newChains, hcut, hstill, hnext⟩ :=
      hdbNew.cutRecord hidx hbucket stop.block_eq stop.loaded hp hrecords
    refine ⟨next, newChains, ?_, hstill.trans hopen, hnext⟩
    rw [hsearch, hlookup, stop.lookup_found hrecords hleft]
    simp only [Option.bind_eq_bind, Option.bind_some, hfound, Bool.not_true, Bool.false_eq_true,
      if_false, hindex, hcut, Option.isSome_some]
  · have hnone := hlookup.trans (stop.lookup_missed hmisses)
    rw [without_of_absent hnone, hsearch, hnone]
    simp only [Option.bind_eq_bind, Option.bind_some, hmisses.1, Bool.not_false, if_true]
    exact ⟨_, chains, rfl, hopen, hdbNew⟩

end Libsax.Db
