import Libsax.Db.HashDbCommit

/-! Flushing, evicting, closing and opening: the chains keep their blocks whether
they are in memory or not. -/
namespace Libsax.Db

open Libsax.Lib

variable {hashFun : Key → UInt32} {db : HashDb} {chains : Nat → List Block} {map : Map}

private theorem holds_create {bucketSize : Nat} {file : ByteStore} {block : Block}
    {behind : List Block}
    (hdisk : OnDisk bucketSize file (block :: behind)) :
    Holds bucketSize file [BucketChain.create block.fpos] (block :: behind) := by
  have hunread : (BucketChain.create block.fpos).isLoaded = true → False :=
    fun h => Bool.false_ne_true h
  exact ⟨⟨rfl, fun h => (hunread h).elim, fun h => (hunread h).elim, fun h => (hunread h).elim,
    fun _ => hdisk.1⟩, hdisk.2⟩

theorem holds_directory {bucketSize : Nat} {file : ByteStore} {blocks : List Block}
    (hfits : ∀ block ∈ blocks, block.Fits bucketSize) (hdisk : OnDisk bucketSize file blocks) :
    Holds bucketSize file (if link blocks = 0 then [] else [BucketChain.create (link blocks)])
      blocks := by
  cases blocks with
  | nil => exact hdisk
  | cons block behind =>
    have hne : link (block :: behind) ≠ 0 := Nat.ne_of_gt (hfits block List.mem_cons_self).positive
    rw [if_neg hne]
    exact holds_create hdisk

theorem Attached.flush (hdb : Attached hashFun db chains map) :
    ∃ file dirtyPageNum,
      db.flush = { db with
        file := file
        entry := fun _ => []
        activeNum := 0
        dirtyPageNum := dirtyPageNum } ∧
      Attached hashFun db.flush chains map ∧
      (∀ i < 2 ^ db.sfh.dpow, OnDisk db.sfh.bucketSize file (chains i)) ∧
      file.read 0 HashHeader.size = db.sfh.bytes ∧
      file.read HashHeader.size (8 * db.directorySize) = db.directory := by
  obtain ⟨file, entry, dirtyPageNum, hnew, -, hdisk, hheader, hdirectory⟩ := hdb.commit
  have hflush : db.flush = { db with
      file := file
      entry := fun _ => []
      activeNum := 0
      dirtyPageNum := dirtyPageNum } := by
    unfold HashDb.flush
    rw [hnew]
    rfl
  refine ⟨file, dirtyPageNum, hflush, ?_, hdisk, hheader, hdirectory⟩
  rw [hflush]
  exact hdb.memory 0 dirtyPageNum hdisk

theorem Attached.flushCacheImpl (hdb : Attached hashFun db chains map) :
    ∃ file entry activeNum dirtyPageNum,
      db.flushCacheImpl = { db with
        file := file
        entry := entry
        activeNum := activeNum
        dirtyPageNum := dirtyPageNum } ∧
      Attached hashFun db.flushCacheImpl chains map := by
  have hcommitted : ∃ file entry dirtyPageNum,
      (if 2 * db.dirtyPageNum.toNat ≥ db.activeNum.toNat then db.commit else db) =
        { db with file := file, entry := entry, dirtyPageNum := dirtyPageNum } ∧
      ∀ i < 2 ^ db.sfh.dpow, Holds db.sfh.bucketSize file (entry i) (chains i) := by
    split_ifs
    · obtain ⟨file, entry, dirtyPageNum, hnew, hdbNew, -⟩ := hdb.commit
      have hholds := hdbNew.holds
      rw [hnew] at hholds
      exact ⟨file, entry, dirtyPageNum, hnew, hholds⟩
    · exact ⟨db.file, db.entry, db.dirtyPageNum, rfl, hdb.holds⟩
  obtain ⟨file, entry, dirtyPageNum, hnew, hholds⟩ := hcommitted
  unfold HashDb.flushCacheImpl
  simp only [hnew]
  refine ⟨_, _, _, _, rfl, hdb.memory _ _ fun i hi => ?_⟩
  rw [if_pos (by rw [hdb.directory]; exact hi)]
  exact evict_holds (hholds i hi)

theorem Attached.flushCache (hdb : Attached hashFun db chains map) :
    ∃ file entry activeNum dirtyPageNum,
      db.flushCache = { db with
        file := file
        entry := entry
        activeNum := activeNum
        dirtyPageNum := dirtyPageNum } ∧
      Attached hashFun db.flushCache chains map := by
  unfold HashDb.flushCache
  split_ifs
  · exact hdb.flushCacheImpl
  · exact ⟨db.file, db.entry, db.activeNum, db.dirtyPageNum, rfl, hdb⟩

theorem Attached.close (hdb : Attached hashFun db chains map) (hopen : db.isOpen = true) :
    Closed hashFun db.close.1 chains map := by
  have hbefore : Attached hashFun { db with isOpen := false } chains map := { hdb with }
  obtain ⟨file, dirtyPageNum, hflush, -, hdisk, hheader, hdirectory⟩ := hbefore.flush
  have hclose : db.close.1 = { db with
      isOpen := false
      attached := false
      file := file
      entry := fun _ => []
      bucketAddr := fun _ => 0
      activeNum := 0
      dirtyPageNum := dirtyPageNum } := by
    unfold HashDb.close
    rw [if_neg (by rw [hopen]; exact Bool.false_ne_true)]
    simp only [hflush]
  rw [hclose]
  have hlayout := hdb.layout
  have hsame : HashHeader.fromFile file =
      { db.sfh with cacheSize := db.sfh.cacheSize % 2 ^ 64 } := by
    have hmagic : db.sfh.magic % 2 ^ 32 = db.sfh.magic := by
      rw [hdb.magic]
      rfl
    have hdegree : db.sfh.dpow % 2 ^ 64 = db.sfh.dpow :=
      Nat.mod_eq_of_lt (Nat.lt_of_lt_of_le hlayout.degree (by decide))
    have hcount : db.sfh.numItems % 2 ^ 64 = db.sfh.numItems := by
      rw [hdb.count, Nat.mod_mod]
    rw [fromFile_bytes hheader, hmagic, hdegree, hcount, Nat.mod_eq_of_lt hlayout.size,
      Nat.mod_eq_of_lt hlayout.blocks]
  refine ⟨rfl, rfl, hdb.exists_, rfl, ⟨_, hsame⟩, hdb.magic, hlayout, hdb.count, ?_, hdisk⟩
  intro i hi
  have hentry := readDirectory_eq hdirectory (by rw [hdb.directory]; exact hi)
  rw [hentry]
  change db.bucketAddr i % 2 ^ 64 = link (chains i)
  rw [hdb.addr i hi]
  exact Nat.mod_eq_of_lt (link_lt (hlayout.fits i hi))

theorem Closed.open_ (hdb : Closed hashFun db chains map) :
    Attached hashFun db.open_.1 chains map ∧ db.open_.1.isOpen = true ∧ db.open_.2 = true := by
  obtain ⟨cacheSize, hheader⟩ := hdb.header
  have hopen : db.open_ = ({ db with
      sfh := { db.sfh with
        cacheSize := if db.cacheSize = 0 then cacheSize else db.cacheSize }
      attached := true
      directorySize := 2 ^ db.sfh.dpow
      dmask := 2 ^ db.sfh.dpow - 1
      bucketAddr := fun i =>
        if i < 2 ^ db.sfh.dpow then HashDb.readDirectory db.file i else 0
      entry := fun i =>
        if (if i < 2 ^ db.sfh.dpow then HashDb.readDirectory db.file i else 0) = 0 then []
        else [BucketChain.create
          (if i < 2 ^ db.sfh.dpow then HashDb.readDirectory db.file i else 0)]
      isOpen := true }, true) := by
    unfold HashDb.open_
    rw [if_neg (by rw [hdb.isOpen]; exact Bool.false_ne_true),
      if_neg (by rw [hdb.exists_]; exact Bool.false_ne_true), hheader]
    simp only [hdb.magic, ne_eq, not_true_eq_false, if_false]
  rw [hopen]
  refine ⟨⟨rfl, hdb.exists_, hdb.magic, rfl, rfl, hdb.layout, hdb.count, ?_, ?_⟩, rfl, rfl⟩
  · intro i hi
    exact (if_pos hi).trans (hdb.addr i hi)
  · intro i hi
    have haddr : (if i < 2 ^ db.sfh.dpow then HashDb.readDirectory db.file i else 0) =
        link (chains i) := (if_pos hi).trans (hdb.addr i hi)
    change Holds db.sfh.bucketSize db.file (if _ = 0 then [] else [BucketChain.create _]) (chains i)
    rw [haddr]
    exact holds_directory (hdb.layout.fits i hi) (hdb.disk i hi)

end Libsax.Db
