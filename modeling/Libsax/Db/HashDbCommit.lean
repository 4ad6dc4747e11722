import Libsax.Lib.OrderedMap
import Libsax.Db.HashDbInvariant

/-! A commit writes every dirty block to its own place: afterwards the file alone
holds what the chains hold. -/
namespace Libsax.Db

open Libsax.Lib

variable {hashFun : Key → UInt32} {db : HashDb} {chains : Nat → List Block} {map : Map}

theorem Attached.memory (hdb : Attached hashFun db chains map) {file : ByteStore}
    {entry : Nat → Chain} (activeNum dirtyPageNum : UInt32)
    (hholds : ∀ i < 2 ^ db.sfh.dpow, Holds db.sfh.bucketSize file (entry i) (chains i)) :
    Attached hashFun { db with
      file := file
      entry := entry
      activeNum := activeNum
      dirtyPageNum := dirtyPageNum } chains map :=
  { hdb with holds := hholds }

/-- A loaded dirty block, named by its bucket and its depth. -/
def Dirty (db : HashDb) (place : Nat × Nat) : Prop :=
  ∃ bucket, (db.entry place.1)[place.2]? = some bucket ∧ bucket.isLoaded = true ∧
    bucket.isDirty = true

/-- The block at a place of a queue. -/
def InQueue (qnode : List (Nat × Nat × Chain)) (item : Nat × (Nat × Nat)) : Prop :=
  ∃ i depth chain k bucket, (i, depth, chain) ∈ qnode ∧ chain[k]? = some bucket ∧
    bucket.isLoaded = true ∧ bucket.isDirty = true ∧ item = (bucket.fpos, (i, depth + k))

@[simp] private theorem queueSize_cons (i depth : Nat) (chain : Chain)
    (qnode : List (Nat × Nat × Chain)) :
    HashDb.queueSize ((i, depth, chain) :: qnode) = chain.length + 1 + HashDb.queueSize qnode := rfl

@[simp] private theorem queueSize_append (left right : List (Nat × Nat × Chain)) :
    HashDb.queueSize (left ++ right) = HashDb.queueSize left + HashDb.queueSize right := by
  unfold HashDb.queueSize
  rw [List.map_append, List.sum_append]

private theorem inQueue_cons {i depth : Nat} {popNode : BucketChain} {next : Chain}
    {qnode : List (Nat × Nat × Chain)} {item : Nat × (Nat × Nat)} :
    InQueue ((i, depth, popNode :: next) :: qnode) item ↔
      (popNode.isLoaded = true ∧ popNode.isDirty = true ∧ item = (popNode.fpos, (i, depth))) ∨
      InQueue (if next.isEmpty then qnode else qnode ++ [(i, depth + 1, next)]) item := by
  constructor
  · rintro ⟨j, start, chain, k, bucket, hmem, hbucket, hloaded, hdirty, rfl⟩
    have hrest : (j, start, chain) ∈ qnode →
        InQueue (if next.isEmpty then qnode else qnode ++ [(i, depth + 1, next)])
          (bucket.fpos, (j, start + k)) := by
      intro hqueued
      refine ⟨j, start, chain, k, bucket, ?_, hbucket, hloaded, hdirty, rfl⟩
      split_ifs
      · exact hqueued
      · exact List.mem_append_left _ hqueued
    rcases List.mem_cons.mp hmem with heq | hqueued
    · cases heq
      cases k with
      | zero =>
        cases hbucket
        exact Or.inl ⟨hloaded, hdirty, rfl⟩
      | succ k =>
        have hbehind : next[k]? = some bucket := hbucket
        refine Or.inr ⟨i, depth + 1, next, k, bucket, ?_, hbehind, hloaded, hdirty, ?_⟩
        · cases next with
          | nil => cases hbehind
          | cons following rest => exact List.mem_append_right _ List.mem_cons_self
        · rw [Nat.add_assoc, Nat.add_comm 1 k]
    · exact Or.inr (hrest hqueued)
  · rintro (⟨hloaded, hdirty, rfl⟩ | ⟨j, start, chain, k, bucket, hmem, hbucket, hloaded, hdirty, rfl⟩)
    · exact ⟨i, depth, popNode :: next, 0, popNode, List.mem_cons_self, rfl, hloaded, hdirty, rfl⟩
    · have hcases : (j, start, chain) ∈ qnode ∨ (j, start, chain) = (i, depth + 1, next) := by
        split_ifs at hmem
        · exact Or.inl hmem
        · exact (List.mem_append.mp hmem).imp_right List.mem_singleton.mp
      rcases hcases with hqueued | heq
      · exact ⟨j, start, chain, k, bucket, List.mem_cons_of_mem _ hqueued, hbucket, hloaded,
          hdirty, rfl⟩
      · cases heq
        refine ⟨i, depth, popNode :: next, k + 1, bucket, List.mem_cons_self, hbucket, hloaded,
          hdirty, ?_⟩
        rw [Nat.add_assoc, Nat.add_comm 1 k]

private theorem mem_dirtyBlocks {fuel : Nat} {qnode : List (Nat × Nat × Chain)}
    (hfuel : HashDb.queueSize qnode ≤ fuel) {item : Nat × (Nat × Nat)} :
    item ∈ HashDb.dirtyBlocks fuel qnode ↔ InQueue qnode item := by
  induction fuel generalizing qnode with
  | zero =>
    cases qnode with
    | nil => simp [HashDb.dirtyBlocks, InQueue]
    | cons first qnode =>
      rw [show first = (first.1, first.2.1, first.2.2) from rfl, queueSize_cons] at hfuel
      omega
  | succ fuel ih =>
    match qnode with
    | [] => simp [HashDb.dirtyBlocks, InQueue]
    | (i, depth, []) :: qnode =>
      rw [queueSize_cons] at hfuel
      rw [HashDb.dirtyBlocks, ih (by omega)]
      constructor
      · rintro ⟨j, start, chain, k, bucket, hmem, hrest⟩
        exact ⟨j, start, chain, k, bucket, List.mem_cons_of_mem _ hmem, hrest⟩
      · rintro ⟨j, start, chain, k, bucket, hmem, hbucket, hrest⟩
        rcases List.mem_cons.mp hmem with heq | hqueued
        · cases heq
          cases hbucket
        · exact ⟨j, start, chain, k, bucket, hqueued, hbucket, hrest⟩
    | (i, depth, popNode :: next) :: qnode =>
      have hsmaller : HashDb.queueSize
          (if next.isEmpty then qnode else qnode ++ [(i, depth + 1, next)]) ≤ fuel := by
        rw [queueSize_cons, List.length_cons] at hfuel
        split_ifs
        · omega
        · rw [queueSize_append, queueSize_cons, show HashDb.queueSize [] = 0 from rfl]
          omega
      have hrest := ih hsmaller
      rw [HashDb.dirtyBlocks, inQueue_cons]
      generalize (if next.isEmpty then qnode else qnode ++ [(i, depth + 1, next)]) = rest at hrest ⊢
      cases hloaded : popNode.isLoaded <;> cases hdirty : popNode.isDirty <;> simp [hrest]

private theorem mem_dirtyBlocks_entries {item : Nat × (Nat × Nat)} :
    item ∈ HashDb.dirtyBlocks (HashDb.queueSize db.entries) db.entries ↔
      item.2.1 < db.directorySize ∧ ∃ bucket, (db.entry item.2.1)[item.2.2]? = some bucket ∧
        bucket.isLoaded = true ∧ bucket.isDirty = true ∧ item.1 = bucket.fpos := by
  rw [mem_dirtyBlocks (Nat.le_refl _)]
  constructor
  · rintro ⟨i, depth, chain, k, bucket, hmem, hbucket, hloaded, hdirty, rfl⟩
    obtain ⟨j, hj, heq⟩ := List.mem_map.mp hmem
    cases heq
    rw [Nat.zero_add]
    exact ⟨List.mem_range.mp hj, bucket, hbucket, hloaded, hdirty, rfl⟩
  · rintro ⟨hlt, bucket, hbucket, hloaded, hdirty, hfpos⟩
    refine ⟨item.2.1, 0, db.entry item.2.1, item.2.2, bucket,
      List.mem_map_of_mem (List.mem_range.mpr hlt), hbucket, hloaded, hdirty, ?_⟩
    rw [← hfpos, Nat.zero_add]

theorem mem_toBeWrited (hdb : Attached hashFun db chains map) {place : Nat × Nat} :
    place ∈ db.toBeWrited.toList.map Prod.snd ↔
      place.1 < 2 ^ db.sfh.dpow ∧ Dirty db place := by
  have hdir := hdb.directory
  have hblock : ∀ {i m : Nat} {bucket : BucketChain}, i < 2 ^ db.sfh.dpow →
      (db.entry i)[m]? = some bucket → ∃ block, (chains i)[m]? = some block ∧
        bucket.fpos = block.fpos := by
    intro i m bucket hi hbucket
    obtain ⟨block, hblock, hshows⟩ := (hdb.holds i hi).getElem? hbucket
    exact ⟨block, hblock, hshows.fpos⟩
  have hget : ∀ pos place, (pos, place) ∈ db.toBeWrited.toList ↔
      ((HashDb.dirtyBlocks (HashDb.queueSize db.entries) db.entries).find?
        fun item => decide (item.1 = pos)).map Prod.snd = some place := by
    intro pos place
    rw [Std.TreeMap.mem_toList_iff_getElem?_eq_some, HashDb.toBeWrited, getElem?_foldl_insertIfNew]
    simp
  constructor
  · intro hmem
    obtain ⟨⟨pos, other⟩, hitem, rfl⟩ := List.mem_map.mp hmem
    obtain ⟨found, hfind, hfound⟩ := Option.map_eq_some_iff.mp ((hget pos other).mp hitem)
    obtain ⟨hlt, bucket, hbucket, hloaded, hdirty, -⟩ :=
      mem_dirtyBlocks_entries.mp (List.mem_of_find?_eq_some hfind)
    rw [hfound] at hlt hbucket
    rw [hdir] at hlt
    exact ⟨hlt, bucket, hbucket, hloaded, hdirty⟩
  · rintro ⟨hlt, bucket, hbucket, hloaded, hdirty⟩
    have hitem : (bucket.fpos, place) ∈
        HashDb.dirtyBlocks (HashDb.queueSize db.entries) db.entries :=
      mem_dirtyBlocks_entries.mpr ⟨by rw [hdir]; exact hlt, bucket, hbucket, hloaded, hdirty, rfl⟩
    have hsome : ((HashDb.dirtyBlocks (HashDb.queueSize db.entries) db.entries).find?
        fun item => decide (item.1 = bucket.fpos)).isSome = true :=
      List.find?_isSome.mpr ⟨_, hitem, decide_eq_true rfl⟩
    obtain ⟨found, hfind⟩ := Option.isSome_iff_exists.mp hsome
    have htest := List.find?_some hfind
    have hpos : found.1 = bucket.fpos := of_decide_eq_true htest
    obtain ⟨hltFound, other, hother, -, -, hfpos⟩ :=
      mem_dirtyBlocks_entries.mp (List.mem_of_find?_eq_some hfind)
    rw [hdir] at hltFound
    obtain ⟨left, hleft, hleftPos⟩ := hblock hlt hbucket
    obtain ⟨right, hright, hrightPos⟩ := hblock hltFound hother
    have hplace := hdb.layout.place_inj hlt hltFound hleft hright
      (by rw [← hleftPos, ← hrightPos, ← hfpos, hpos])
    have hsame : found.2 = place := Prod.ext hplace.1.symm hplace.2.symm
    refine List.mem_map.mpr ⟨(bucket.fpos, place), (hget _ _).mpr ?_, rfl⟩
    rw [hfind, Option.map_some, hsame]

private theorem getElem?_of_other {α : Type} {before after : List α} {middle other : α}
    (hother : other ∈ before ++ after) :
    ∃ n, n ≠ before.length ∧ (before ++ middle :: after)[n]? = some other := by
  rcases List.mem_append.mp hother with hmem | hmem
  · obtain ⟨n, hlt, hn⟩ := List.mem_iff_getElem.mp hmem
    refine ⟨n, Nat.ne_of_lt hlt, ?_⟩
    rw [List.getElem?_append_left hlt, List.getElem?_eq_getElem hlt, hn]
  · obtain ⟨n, hlt, hn⟩ := List.mem_iff_getElem.mp hmem
    refine ⟨before.length + (n + 1), by omega, ?_⟩
    rw [List.getElem?_append_right (by omega), Nat.add_sub_cancel_left, List.getElem?_cons_succ,
      List.getElem?_eq_getElem hlt, hn]

private theorem writeBlock_idle {place : Nat × Nat} (hidle : ¬Dirty db place) :
    db.writeBlock place = db := by
  unfold HashDb.writeBlock
  cases hget : (db.entry place.1)[place.2]? with
  | none =>
    rw [List.drop_eq_nil_of_le (List.getElem?_eq_none_iff.mp hget)]
  | some bucket =>
    have hwork : ¬(bucket.isLoaded = true ∧ bucket.isDirty = true) :=
      fun hboth => hidle ⟨bucket, hget, hboth⟩
    rw [drop_at hget]
    simp only [bucket.write_idle hwork, set_at hget, ← (split_at hget).1, Function.update_eq_self]
    rfl

theorem Attached.writeBlock_eq (hdb : Attached hashFun db chains map) {i depth : Nat}
    (hi : i < 2 ^ db.sfh.dpow) {bucket : BucketChain}
    (hbucket : (db.entry i)[depth]? = some bucket) (hloaded : bucket.isLoaded = true)
    (hdirty : bucket.isDirty = true) :
    ∃ block nextfpos file written, (chains i)[depth]? = some block ∧ written.isDirty = false ∧
      file = db.file.write block.fpos (block.image nextfpos) ∧
      db.writeBlock (i, depth) = { db with
        file := file
        entry := Function.update db.entry i ((db.entry i).set depth written)
        dirtyPageNum := db.dirtyPageNum - 1 } ∧
      Holds db.sfh.bucketSize file ((db.entry i).set depth written) (chains i) := by
  have hholds := hdb.holds i hi
  obtain ⟨block, hblock, -⟩ := hholds.getElem? hbucket
  obtain ⟨hchain, hfront⟩ := split_at hbucket
  obtain ⟨hblocks, hbefore⟩ := split_at hblock
  have hlength := hfront.trans hbefore.symm
  have hfits := hdb.layout.fits i hi block (List.mem_of_getElem? hblock)
  rw [hchain, hblocks] at hholds
  have hwrite := write_eq hloaded hdirty (Holds.drop hlength hholds)
  have hkept := write_holds hfits hlength hloaded hdirty (by
    intro other hother
    obtain ⟨n, hne, hn⟩ := getElem?_of_other hother
    rw [← hblocks] at hn
    rw [hbefore] at hne
    rw [hwrite]
    exact hdb.layout.agree_write hi hi hblock hn
      (fun heq => hne (Prod.ext_iff.mp heq).2.symm) _ _) hholds
  rw [hwrite, ← hblocks, ← set_at hbucket] at hkept
  refine ⟨block, _, _, _, hblock, ?_, rfl, ?_, hkept⟩
  · rfl
  · unfold HashDb.writeBlock
    rw [drop_at hbucket]
    simp only [hwrite]
    rfl

theorem Attached.writeBlock (hdb : Attached hashFun db chains map) {place : Nat × Nat}
    (hplace : place.1 < 2 ^ db.sfh.dpow) :
    ∃ file entry dirtyPageNum,
      db.writeBlock place =
        { db with file := file, entry := entry, dirtyPageNum := dirtyPageNum } ∧
      Attached hashFun (db.writeBlock place) chains map ∧
      ByteStore.Agree 0 (base db.sfh.dpow) file db.file ∧
      ∀ other, Dirty (db.writeBlock place) other → Dirty db other ∧ other ≠ place := by
  by_cases hwork : Dirty db place
  · obtain ⟨i, depth⟩ := place
    obtain ⟨bucket, hbucket, hloaded, hdirty⟩ := hwork
    obtain ⟨block, nextfpos, file, written, hblock, hclean, rfl, hnew, hkept⟩ :=
      hdb.writeBlock_eq hplace hbucket hloaded hdirty
    rw [hnew]
    refine ⟨_, _, _, rfl, ?_, ?_, ?_⟩
    · refine hdb.memory _ _ fun j hj => ?_
      by_cases heq : j = i
      · subst heq
        rw [Function.update_self]
        exact hkept
      · rw [Function.update_of_ne heq]
        refine (hdb.holds j hj).frame fun other hother => ?_
        obtain ⟨n, hn⟩ := List.mem_iff_getElem?.mp hother
        exact hdb.layout.agree_write hplace hj hblock hn
          (fun hsame => heq (Prod.ext_iff.mp hsame).1.symm) _ _
    · have hbase := hdb.layout.base_le hplace (List.mem_of_getElem? hblock)
      exact ByteStore.agree_write (Or.inl (by omega))
    · rintro ⟨j, n⟩ ⟨found, hfound, hthere, hstill⟩
      by_cases heq : j = i
      · subst heq
        simp only [Function.update_self] at hfound
        by_cases hsame : n = depth
        · subst hsame
          rw [List.getElem?_set_self (List.getElem?_eq_some_iff.mp hbucket).1] at hfound
          cases hfound
          exact absurd hstill (by rw [hclean]; exact Bool.false_ne_true)
        · rw [List.getElem?_set_ne (Ne.symm hsame)] at hfound
          exact ⟨⟨found, hfound, hthere, hstill⟩, fun hboth => hsame (Prod.ext_iff.mp hboth).2⟩
      · simp only [Function.update_of_ne heq] at hfound
        exact ⟨⟨found, hfound, hthere, hstill⟩, fun hboth => heq (Prod.ext_iff.mp hboth).1⟩
  · rw [writeBlock_idle hwork]
    refine ⟨db.file, db.entry, db.dirtyPageNum, rfl, hdb, fun _ _ => rfl, fun other hdirty =>
      ⟨hdirty, ?_⟩⟩
    rintro rfl
    exact hwork hdirty

theorem Attached.writeBlocks (hdb : Attached hashFun db chains map) {places : List (Nat × Nat)}
    (hplaces : ∀ place ∈ places, place.1 < 2 ^ db.sfh.dpow) :
    ∃ file entry dirtyPageNum,
      places.foldl HashDb.writeBlock db =
        { db with file := file, entry := entry, dirtyPageNum := dirtyPageNum } ∧
      Attached hashFun (places.foldl HashDb.writeBlock db) chains map ∧
      ByteStore.Agree 0 (base db.sfh.dpow) file db.file ∧
      ∀ other, Dirty (places.foldl HashDb.writeBlock db) other → Dirty db other ∧ other ∉ places := by
  induction places generalizing db with
  | nil =>
    exact ⟨db.file, db.entry, db.dirtyPageNum, rfl, hdb, fun _ _ => rfl,
      fun other hdirty => ⟨hdirty, List.not_mem_nil⟩⟩
  | cons place rest ih =>
    obtain ⟨file, entry, dirtyPageNum, hnew, hdbNew, hagree, hdirty⟩ :=
      hdb.writeBlock (hplaces place List.mem_cons_self)
    have hrest : ∀ other ∈ rest, other.1 < 2 ^ (db.writeBlock place).sfh.dpow := by
      intro other hother
      rw [hnew]
      exact hplaces other (List.mem_cons_of_mem _ hother)
    obtain ⟨file', entry', dirtyPageNum', hnew', hdb', hagree', hdirty'⟩ :=
      ih hdbNew hrest
    refine ⟨file', entry', dirtyPageNum', ?_, hdb', ?_, ?_⟩
    · rw [List.foldl_cons, hnew', hnew]
    · rw [hnew] at hagree'
      exact fun n hn => (hagree' n hn).trans (hagree n hn)
    · intro other hother
      obtain ⟨hstill, hnot⟩ := hdirty' other hother
      obtain ⟨hold, hne⟩ := hdirty other hstill
      exact ⟨hold, fun hmem => (List.mem_cons.mp hmem).elim hne hnot⟩

theorem HashHeader.bytes_length (header : HashHeader) : header.bytes.length = HashHeader.size := by
  simp only [HashHeader.bytes, List.length_append, Bytes.encode_length]
  rfl

@[simp] private theorem directory_length (db : HashDb) :
    db.directory.length = 8 * db.directorySize := by
  unfold HashDb.directory
  simp [List.length_flatMap]
  omega

theorem fromFile_bytes {header : HashHeader} {file : ByteStore}
    (hread : file.read 0 HashHeader.size = header.bytes) :
    HashHeader.fromFile file =
      { magic := header.magic % 2 ^ 32
        bucketSize := header.bucketSize % 2 ^ 64
        dpow := header.dpow % 2 ^ 64
        cacheSize := header.cacheSize % 2 ^ 64
        numItems := header.numItems % 2 ^ 64
        nBlock := header.nBlock % 2 ^ 64 } := by
  have hsplit : file.read 0 HashHeader.size =
      file.read 0 8 ++ (file.read 8 8 ++ (file.read 16 8 ++ (file.read 24 8 ++
        (file.read 32 8 ++ file.read 40 8)))) := by
    rw [← ByteStore.read_add, ← ByteStore.read_add, ← ByteStore.read_add, ← ByteStore.read_add,
      ← ByteStore.read_add]
    rfl
  rw [hsplit] at hread
  unfold HashHeader.bytes at hread
  obtain ⟨hmagic, hread⟩ := List.append_inj hread (by simp)
  obtain ⟨hbucketSize, hread⟩ := List.append_inj hread (by simp)
  obtain ⟨hdpow, hread⟩ := List.append_inj hread (by simp)
  obtain ⟨hcacheSize, hread⟩ := List.append_inj hread (by simp)
  obtain ⟨hnumItems, hnBlock⟩ := List.append_inj hread (by simp)
  have hlow : file.read 0 4 = Bytes.encode 4 header.magic := by
    have hboth : file.read 0 4 ++ file.read 4 4 =
        Bytes.encode 4 header.magic ++ Bytes.encode 4 (header.magic / 256 ^ 4) := by
      rw [← ByteStore.read_add, ← Bytes.encode_add]
      exact hmagic
    exact (List.append_inj hboth (by simp)).1
  unfold HashHeader.fromFile
  rw [hlow, hbucketSize, hdpow, hcacheSize, hnumItems, hnBlock]
  simp only [Bytes.decode_encode]
  rfl

theorem readDirectory_eq {file : ByteStore}
    (hread : file.read HashHeader.size (8 * db.directorySize) = db.directory) {i : Nat}
    (hi : i < db.directorySize) : HashDb.readDirectory file i = db.bucketAddr i % 2 ^ 64 := by
  have hentry : ∀ n, i < n →
      file.read HashHeader.size (8 * n) =
        (List.range n).flatMap (fun j => Bytes.encode 8 (db.bucketAddr j)) →
      file.read (HashHeader.size + 8 * i) 8 = Bytes.encode 8 (db.bucketAddr i) := by
    intro n
    induction n with
    | zero => exact fun hlt => absurd hlt (Nat.not_lt_zero i)
    | succ n ih =>
      intro hlt hread
      rw [Nat.mul_succ, ByteStore.read_add, List.range_succ, List.flatMap_append,
        List.flatMap_singleton] at hread
      obtain ⟨hfront, hlast⟩ := List.append_inj' hread (by simp)
      rcases Nat.lt_succ_iff_lt_or_eq.mp hlt with hless | heq
      · exact ih hless hfront
      · rw [heq]
        exact hlast
  unfold HashDb.readDirectory
  rw [hentry _ hi hread, Bytes.decode_encode]
  rfl

theorem Attached.writeHeader (hdb : Attached hashFun db chains map) :
    Attached hashFun db.writeHeader chains map ∧
    db.writeHeader.file.read 0 HashHeader.size = db.sfh.bytes ∧
    db.writeHeader.file.read HashHeader.size (8 * db.directorySize) = db.directory := by
  have hlength := directory_length db
  have hheader : (db.sfh.toFile db.file).read 0 HashHeader.size = db.sfh.bytes := by
    rw [← HashHeader.bytes_length db.sfh]
    exact ByteStore.read_write
  refine ⟨hdb.memory _ _ fun i hi => ?_, ?_, ?_⟩
  · refine (hdb.holds i hi).frame fun block hblock => ?_
    have hbase := hdb.layout.base_le hi hblock
    unfold base at hbase
    rw [← hdb.directory, ← hlength] at hbase
    intro n hn
    unfold HashHeader.toFile
    rw [ByteStore.write_of_outside (Or.inr (by omega)),
      ByteStore.write_of_outside (Or.inr (by rw [HashHeader.bytes_length]; omega))]
  · rw [← hheader]
    exact ByteStore.read_congr (ByteStore.agree_write (Or.inl (by omega)))
  · rw [← hlength]
    exact ByteStore.read_write

theorem Attached.commit (hdb : Attached hashFun db chains map) :
    ∃ file entry dirtyPageNum,
      db.commit = { db with file := file, entry := entry, dirtyPageNum := dirtyPageNum } ∧
      Attached hashFun db.commit chains map ∧
      (∀ i < 2 ^ db.sfh.dpow, OnDisk db.sfh.bucketSize file (chains i)) ∧
      file.read 0 HashHeader.size = db.sfh.bytes ∧
      file.read HashHeader.size (8 * db.directorySize) = db.directory := by
  obtain ⟨hheaded, hheader, hdirectory⟩ := hdb.writeHeader
  have hmem : ∀ {place}, place ∈ db.toBeWrited.toList.map Prod.snd ↔
      place.1 < 2 ^ db.sfh.dpow ∧ Dirty db place := mem_toBeWrited hdb
  have hcommit : db.commit =
      (db.toBeWrited.toList.map Prod.snd).foldl HashDb.writeBlock db.writeHeader := by
    unfold HashDb.commit
    rw [if_pos hdb.attached, List.foldl_map]
  obtain ⟨file, entry, dirtyPageNum, hnew, hdbNew, hagree, hdirty⟩ :=
    hheaded.writeBlocks fun place hplace => (hmem.mp hplace).1
  rw [← hcommit] at hnew hdbNew hdirty
  have hnone : ∀ place, place.1 < 2 ^ db.sfh.dpow → ¬Dirty db.commit place := by
    intro place hplace hstill
    obtain ⟨hold, hnot⟩ := hdirty place hstill
    exact hnot (hmem.mpr ⟨hplace, hold⟩)
  have hkeep : ∀ pos length, pos + length ≤ base db.sfh.dpow →
      file.read pos length = db.writeHeader.file.read pos length := by
    intro pos length hle
    refine ByteStore.read_congr fun n hn => ?_
    have hsame := hagree (pos + n) (Nat.lt_of_lt_of_le (Nat.add_lt_add_left hn pos) hle)
    rwa [Nat.zero_add] at hsame
  refine ⟨file, entry, dirtyPageNum, hnew, hdbNew, fun i hi => ?_, ?_, ?_⟩
  · have hholds := hdbNew.holds i (by rw [hnew]; exact hi)
    rw [hnew] at hholds
    refine onDisk_of_clean hholds fun bucket hbucket => ?_
    by_contra hwork
    rw [Bool.not_eq_false, Bool.and_eq_true] at hwork
    obtain ⟨n, hn⟩ := List.mem_iff_getElem?.mp hbucket
    refine hnone (i, n) hi ⟨bucket, ?_, hwork⟩
    rw [hnew]
    exact hn
  · rw [hkeep 0 _ (by unfold base; omega)]
    exact hheader
  · rw [hkeep _ _ (by unfold base; rw [hdb.directory])]
    exact hdirectory

end Libsax.Db
