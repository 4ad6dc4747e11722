import Libsax.Db.HashDbSessions

/-! Looking a key up: the walk over its chain gives the answer of the map. -/
namespace Libsax.Db

open Libsax.Lib

variable {hashFun : Key → UInt32} {db : HashDb} {chains : Nat → List Block} {map : Map}

theorem lookup_eq_none {map : Map} {key : Key} :
    lookup map key = none ↔ ∀ entry ∈ map, entry.1 ≠ key := by
  unfold lookup
  rw [Option.map_eq_none_iff, List.find?_eq_none]
  simp only [decide_eq_true_eq, ne_eq]

private theorem lookup_middle {left right : Map} {key : Key} {value : Value}
    (hleft : ∀ entry ∈ left, entry.1 ≠ key) :
    lookup (left ++ (key, value) :: right) key = some value := by
  have hnone : left.find? (fun entry => decide (entry.1 = key)) = none :=
    List.find?_eq_none.mpr fun entry hentry => by simp [hleft entry hentry]
  unfold lookup
  rw [List.find?_append, hnone, Option.none_or, List.find?_cons]
  simp

private theorem lookup_perm {left right : Map} (hperm : left.Perm right)
    (hdistinct : (right.map Prod.fst).Nodup) (key : Key) : lookup left key = lookup right key := by
  unfold lookup
  congr 1
  refine List.find?_eq_find?_of_perm hperm ?_
  intro entry hentry other hother
  have hkeys : entry.1 = other.1 :=
    (of_decide_eq_true hentry.2).trans (of_decide_eq_true hother.2).symm
  exact List.inj_on_of_nodup_map hdistinct (hperm.mem_iff.mp hentry.1)
    (hperm.mem_iff.mp hother.1) hkeys

theorem without_of_absent {map : Map} {key : Key} (hnone : lookup map key = none) :
    without map key = map :=
  List.filter_eq_self.mpr fun entry hentry => by simp [lookup_eq_none.mp hnone entry hentry]

theorem perm_without {map rest : Map} {key : Key} {value : Value}
    (hdistinct : (map.map Prod.fst).Nodup) (hperm : map.Perm ((key, value) :: rest)) :
    rest.Perm (without map key) := by
  have hnodup := (hperm.map Prod.fst).nodup_iff.mp hdistinct
  rw [List.map_cons, List.nodup_cons] at hnodup
  have hrest : ∀ entry ∈ rest, entry.1 ≠ key := fun entry hentry hsame =>
    hnodup.1 (List.mem_map.mpr ⟨entry, hentry, hsame⟩)
  unfold without
  refine List.Perm.trans ?_ (hperm.filter _).symm
  rw [List.filter_cons_of_neg (by simp)]
  rw [List.filter_eq_self.mpr fun entry hentry => by simp [hrest entry hentry]]

theorem Layout.lookup_eq {bucketSize dpow nBlock : Nat}
    (hlayout : Layout hashFun bucketSize dpow nBlock chains map) (key : Key) :
    lookup map key = lookup (recordsOf (chains (slot hashFun dpow key))) key := by
  have hslot := slot_lt hashFun dpow key
  rw [← lookup_perm hlayout.perm hlayout.distinct]
  unfold lookup
  rw [hlayout.filed.find?_bucket hslot]
  intro entry hentry
  have hkey : entry.1 = key := of_decide_eq_true hentry
  exact congrArg (slot hashFun dpow) hkey

@[simp] theorem recordsOf_append (left right : List Block) :
    recordsOf (left ++ right) = recordsOf left ++ recordsOf right := List.flatMap_append

@[simp] theorem recordsOf_cons (block : Block) (behind : List Block) :
    recordsOf (block :: behind) = block.records ++ recordsOf behind := List.flatMap_cons

section Stop

variable {bucketSize : Nat} {file : ByteStore} {key : Key} {blocks : List Block} {walk : Walk}
  (stop : Stop bucketSize file key blocks walk)

theorem Stop.passed_records : ∀ entry ∈ recordsOf stop.before, entry.1 ≠ key := by
  intro entry hentry
  obtain ⟨block, hblock, hmem⟩ := List.mem_flatMap.mp hentry
  exact stop.passed block hblock entry hmem

theorem Stop.bucket_eq : walk.chain[walk.locn.depth]? = some stop.bucket := by
  rw [stop.chain, stop.depth, ← stop.length, List.getElem?_append_right (Nat.le_refl _),
    Nat.sub_self]
  rfl

theorem Stop.block_eq : blocks[walk.locn.depth]? = some stop.block := by
  calc blocks[walk.locn.depth]?
      = (stop.before ++ stop.block :: stop.after)[walk.locn.depth]? :=
        congrArg (fun list : List Block => list[walk.locn.depth]?) stop.split
    _ = some stop.block := by
      rw [stop.depth, List.getElem?_append_right (Nat.le_refl _), Nat.sub_self]
      rfl

theorem Stop.shows : Shows bucketSize file stop.bucket (walk.chain.drop (walk.locn.depth + 1))
    stop.block (blocks.drop (walk.locn.depth + 1)) := by
  obtain ⟨block, hblock, hshows⟩ := stop.holds.getElem? stop.bucket_eq
  rwa [Option.some.inj (stop.block_eq.symm.trans hblock)]

theorem Stop.lookup_found {left right : List (Key × Value)} {value : Value}
    (hrecords : stop.block.records = left ++ (key, value) :: right)
    (hleft : ∀ entry ∈ left, entry.1 ≠ key) : lookup (recordsOf blocks) key = some value := by
  have hall : recordsOf blocks = (recordsOf stop.before ++ left) ++
      (key, value) :: (right ++ recordsOf stop.after) := by
    calc recordsOf blocks = recordsOf (stop.before ++ stop.block :: stop.after) :=
          congrArg recordsOf stop.split
      _ = _ := by
        rw [recordsOf_append, recordsOf_cons, hrecords]
        simp
  rw [hall]
  refine lookup_middle fun entry hentry => ?_
  exact (List.mem_append.mp hentry).elim (stop.passed_records entry) (hleft entry)

theorem Stop.lookup_missed (hmisses : stop.Misses) : lookup (recordsOf blocks) key = none := by
  obtain ⟨-, hafter, -, hnone, -⟩ := hmisses
  have hall : recordsOf blocks = recordsOf stop.before ++ stop.block.records := by
    calc recordsOf blocks = recordsOf (stop.before ++ stop.block :: stop.after) :=
          congrArg recordsOf stop.split
      _ = _ := by
        rw [recordsOf_append, recordsOf_cons, hafter]
        simp [recordsOf]
  rw [hall]
  refine lookup_eq_none.mpr fun entry hentry => ?_
  exact (List.mem_append.mp hentry).elim (stop.passed_records entry) (hnone entry)

end Stop

theorem Attached.enter (hdb : Attached hashFun db chains map) {idx : Nat}
    (hidx : idx < 2 ^ db.sfh.dpow) :
    Holds db.sfh.bucketSize db.file (db.enter idx) (chains idx) ∧
    (db.enter idx = [] → chains idx = []) := by
  have hholds := hdb.holds idx hidx
  have hfits := hdb.layout.fits idx hidx
  unfold HashDb.enter
  cases hentry : db.entry idx with
  | nil =>
    rw [hentry] at hholds
    simp only [hdb.addr idx hidx]
    refine ⟨holds_directory hfits hholds, fun hnil => ?_⟩
    by_contra hne
    rw [if_neg fun hzero => hne ((link_eq_zero hfits).mp hzero)] at hnil
    cases hnil
  | cons bucket next =>
    rw [hentry] at hholds
    exact ⟨hholds, fun hnil => nomatch hnil⟩

theorem load_holds {blocks : List Block} {bucket : BucketChain} {next : Chain}
    (hfits : ∀ block ∈ blocks, block.Fits db.sfh.bucketSize)
    (hholds : Holds db.sfh.bucketSize db.file (bucket :: next) blocks) :
    ∃ activeNum loaded rest block behind, blocks = block :: behind ∧
      db.load (bucket :: next) = ({ db with activeNum := activeNum }, loaded :: rest) ∧
      loaded.isLoaded = true ∧
      Holds db.sfh.bucketSize db.file (loaded :: rest) (block :: behind) := by
  cases blocks with
  | nil => exact absurd hholds id
  | cons block behind =>
    unfold HashDb.load
    by_cases hthere : bucket.isLoaded = true
    · exact ⟨db.activeNum, bucket, next, block, behind, rfl, if_pos hthere, hthere, hholds⟩
    · obtain ⟨loaded, rest, hread, hloaded, hrest⟩ := readFile_holds hfits hholds
      refine ⟨db.activeNum + 1, loaded, rest, block, behind, rfl, ?_, hloaded, hrest⟩
      simp only
      rw [if_neg hthere, hread]

theorem not_closed (hopen : db.isOpen = true) : ¬(!db.isOpen) = true := by
  rw [hopen]
  exact Bool.false_ne_true

/-- `search_` changes what is in memory, and stops where the key is or would be. -/
theorem Attached.search_ (hdb : Attached hashFun db chains map) (hopen : db.isOpen = true)
    (key : Key) :
    chains (slot hashFun db.sfh.dpow key) = [] ∧
      HashDb.search_ hashFun db key = some (db, false, none) ∨
    ∃ walk activeNum,
      HashDb.search_ hashFun db key = some ({ db with
        entry := Function.update db.entry (slot hashFun db.sfh.dpow key) walk.chain
        activeNum := activeNum }, walk.found, some walk.locn) ∧
      Attached hashFun { db with
        entry := Function.update db.entry (slot hashFun db.sfh.dpow key) walk.chain
        activeNum := activeNum } chains map ∧
      ∃ stop : Stop db.sfh.bucketSize db.file key (chains (slot hashFun db.sfh.dpow key)) walk,
        stop.Finds ∨ stop.Misses := by
  have hidx := slot_lt hashFun db.sfh.dpow key
  have hindex := hdb.index_eq key
  obtain ⟨henter, hempty⟩ := hdb.enter hidx
  generalize slot hashFun db.sfh.dpow key = idx at *
  unfold HashDb.search_
  rw [if_neg (not_closed hopen)]
  simp only [hindex]
  cases hentry : db.enter idx with
  | nil => exact Or.inl ⟨hempty hentry, rfl⟩
  | cons bucket next =>
    rw [hentry] at henter
    have hfits := hdb.layout.fits idx hidx
    obtain ⟨activeNum, loaded, rest, block, behind, hchain, hload, hloaded, hholds⟩ :=
      load_holds hfits henter
    have hfuel : behind.length < db.sfh.nBlock + 1 := by
      have hlength := hdb.layout.chain_length_le hidx
      rw [hchain, List.length_cons] at hlength
      omega
    rw [hchain] at hfits
    obtain ⟨walk, hwalk, hstop⟩ :=
      searchChain_stops hdb.layout.size key hfuel hfits hloaded hholds
    simp only [hload, hwalk, Option.bind_eq_bind, Option.bind_some]
    rw [← hchain] at hstop
    obtain ⟨stop, hend⟩ := hstop
    refine Or.inr ⟨walk, _, rfl, hdb.memory _ _ fun i hi => ?_, stop, hend⟩
    by_cases heq : i = idx
    · subst heq
      rw [Function.update_self]
      exact stop.holds
    · rw [Function.update_of_ne heq]
      exact hdb.holds i hi

theorem Stop.reads {bucketSize : Nat} {file : ByteStore} {key : Key} {blocks : List Block}
    {walk : Walk} (stop : Stop bucketSize file key blocks walk)
    (hfits : stop.block.Fits bucketSize) (hsize : bucketSize < 2 ^ 64)
    {left right : List (Key × Value)} {value : Value}
    (hrecords : stop.block.records = left ++ (key, value) :: right) :
    stop.bucket.str = some stop.block.str ∧
    peekSize stop.block.str (packed left).length = some key.length ∧
    peekSize stop.block.str ((packed left).length + 8) = some value.length ∧
    peek stop.block.str ((packed left).length + 8 + 8 + key.length) value.length =
      some value := by
  obtain ⟨hkey, hvalue⟩ := hfits.sizes hsize (key, value) (by rw [hrecords]; simp)
  have hstr : stop.block.str =
      packed left ++ record key value ++ (packed right ++ stop.block.rest) := by
    unfold Block.str
    rw [hrecords]
    simp
  obtain ⟨hksz, hvsz, -, hread⟩ :=
    record_reads (packed left) (packed right ++ stop.block.rest) hkey hvalue
  rw [← hstr] at hksz hvsz hread
  exact ⟨stop.shows.str stop.loaded, hksz, hvsz, hread⟩

theorem Attached.find (hdb : Attached hashFun db chains map) (hopen : db.isOpen = true)
    (key : Key) :
    ∃ entry activeNum,
      HashDb.find hashFun db key =
        some ({ db with entry := entry, activeNum := activeNum }, lookup map key) ∧
      Attached hashFun { db with entry := entry, activeNum := activeNum } chains map := by
  have hlookup := hdb.layout.lookup_eq key
  have hidx := slot_lt hashFun db.sfh.dpow key
  unfold HashDb.find
  rw [if_neg (not_closed hopen)]
  rcases hdb.search_ hopen key with
    ⟨hnil, hsearch⟩ | ⟨walk, activeNum, hsearch, hdbNew, stop, hfinds | hmisses⟩
  · rw [hnil] at hlookup
    refine ⟨db.entry, db.activeNum, ?_, hdb⟩
    rw [hsearch, hlookup]
    rfl
  · obtain ⟨hfound, left, value, right, hrecords, hleft, hp⟩ := hfinds
    have hfits := hdb.layout.fits _ hidx stop.block (List.mem_of_getElem? stop.block_eq)
    obtain ⟨hstr, -, hvsz, hvalue⟩ := stop.reads hfits hdb.layout.size hrecords
    refine ⟨_, _, ?_, hdbNew⟩
    have hindex := hdbNew.index_eq key
    rw [hlookup, stop.lookup_found hrecords hleft, hsearch]
    simp only [Option.bind_eq_bind, Option.bind_some, hfound, Bool.not_true, Bool.false_eq_true,
      if_false, hindex, Function.update_self, stop.bucket_eq, hstr, hp, hvsz, hvalue]
  · refine ⟨_, _, ?_, hdbNew⟩
    rw [hlookup, stop.lookup_missed hmisses, hsearch]
    simp only [Option.bind_eq_bind, Option.bind_some, hmisses.1, Bool.not_false, if_true]

theorem Attached.search (hdb : Attached hashFun db chains map) (hopen : db.isOpen = true)
    (key : Key) :
    ∃ next, HashDb.search hashFun db key = some (next, (lookup map key).isSome) ∧
      next.isOpen = true ∧ Attached hashFun next chains map := by
  have hlookup := hdb.layout.lookup_eq key
  obtain ⟨file, entry, activeNum, dirtyPageNum, hflush, hdbFlushed⟩ := hdb.flushCache
  rw [hflush] at hdbFlushed
  unfold HashDb.search
  rw [hflush]
  rcases hdbFlushed.search_ hopen key with
    ⟨hnil, hsearch⟩ | ⟨walk, active, hsearch, hdbNew, stop, hfinds | hmisses⟩
  · have hchain : chains (slot hashFun db.sfh.dpow key) = [] := hnil
    rw [hchain] at hlookup
    rw [hlookup, hsearch]
    exact ⟨_, rfl, hopen, hdbFlushed⟩
  · obtain ⟨hfound, left, value, right, hrecords, hleft, -⟩ := hfinds
    rw [hlookup.trans (stop.lookup_found hrecords hleft), hsearch, hfound]
    exact ⟨_, rfl, hopen, hdbNew⟩
  · rw [hlookup.trans (stop.lookup_missed hmisses), hsearch, hmisses.1]
    exact ⟨_, rfl, hopen, hdbNew⟩

end Libsax.Db
