import Libsax.Db.HashDbInsert

/-! Runs of the hash database: whatever is cached, evicted, committed or reopened
in between, it answers as a finite map does. -/
namespace Libsax.Db

open Libsax.Lib

inductive Call where
  | insert (key : Key) (value : Value)
  | find (key : Key)
  | del (key : Key)
  | search (key : Key)
  | setCacheSize (cacheSize : Nat)
  | commit
  | flush
  | close
  | open_
deriving DecidableEq, Repr

inductive Reply where
  | flag (answer : Bool)
  | value (answer : Option Value)
  | done
deriving DecidableEq, Repr

def exec (hashFun : Key → UInt32) (db : HashDb) : Call → Option (HashDb × Reply)
  | .insert key value => (db.insert hashFun key value).map fun out => (out.1, .flag out.2)
  | .find key => (db.find hashFun key).map fun out => (out.1, .value out.2)
  | .del key => (db.del hashFun key).map fun out => (out.1, .flag out.2)
  | .search key => (db.search hashFun key).map fun out => (out.1, .flag out.2)
  | .setCacheSize cacheSize => some (db.setCacheSize cacheSize, .done)
  | .commit => some (db.commit, .done)
  | .flush => some (db.flush, .done)
  | .close => some (db.close.1, .flag db.close.2)
  | .open_ => some (db.open_.1, .flag db.open_.2)

/-- A database and the map its callers take it for. -/
structure System where
  db : HashDb
  map : Map

def expected (system : System) : Call → Reply
  | .insert key _ => .flag (system.db.isOpen && (lookup system.map key).isNone)
  | .find key => .value (if system.db.isOpen then lookup system.map key else none)
  | .del key => .flag (system.db.isOpen && (lookup system.map key).isSome)
  | .search key => .flag (system.db.isOpen && (lookup system.map key).isSome)
  | .close => .flag true
  | .open_ => .flag true
  | _ => .done

def remember (system : System) : Call → Map
  | .insert key value =>
    if system.db.isOpen && (lookup system.map key).isNone then (key, value) :: system.map
    else system.map
  | .del key => if system.db.isOpen then without system.map key else system.map
  | _ => system.map

def step (hashFun : Key → UInt32) (system : System) (call : Call) : Option System :=
  (exec hashFun system.db call).map fun out => ⟨out.1, remember system call⟩

/-- The callers insert records that fit a block, with keys that are not empty. -/
def Fitting (system : System) : Call → Prop
  | .insert key value =>
    key ≠ [] ∧ 36 + key.length + value.length ≤ system.db.sfh.bucketSize
  | _ => True

instance (system : System) (call : Call) : Decidable (Fitting system call) := by
  unfold Fitting
  cases call <;> infer_instance

/-- The loop of `loadFactor` along a chain: all its blocks, loaded. -/
def loadChain (bucketSize : Nat) (file : ByteStore) : Nat → Chain → Option Chain
  | 0, _ => none
  | _ + 1, [] => some []
  | fuel + 1, sa :: next =>
    (loadChain bucketSize file fuel (BucketChain.loadNext bucketSize file next).1).map (sa :: ·)

def HashDb.blocks (db : HashDb) (idx : Nat) : Option Chain :=
  loadChain db.sfh.bucketSize db.file (db.sfh.nBlock + 2) (db.load (db.enter idx)).2

def Disjoint (db : HashDb) : Prop :=
  ∃ blocks : Nat → Chain, (∀ i < db.directorySize, db.blocks i = some (blocks i)) ∧
    (∀ bucket ∈ contents db.directorySize blocks,
      HashHeader.size + 8 * db.directorySize ≤ bucket.fpos) ∧
    (contents db.directorySize blocks).Pairwise fun left right =>
      left.fpos + db.sfh.bucketSize ≤ right.fpos ∨ right.fpos + db.sfh.bucketSize ≤ left.fpos

/-- A record that is not there yet goes into a block that can count it, `num`
being an `int`, or into a new block that has a place in the file. -/
def roomy (hashFun : Key → UInt32) (db : HashDb) (key : Key) (value : Value) : Bool :=
  match db.blocks (db.index hashFun key) with
  | none => false
  | some chain =>
    match chain.getLast? with
    | none => decide (HasPlace db.sfh)
    | some last =>
      match last.str.bind fun str => scan str key last.num.toNatClampNeg 0 with
      | some (.past p) =>
        if p > HashDb.lastPlace db.sfh.bucketSize key.length value.length then
          decide (HasPlace db.sfh)
        else decide (last.num.toNatClampNeg + 1 < 2 ^ 31)
      | _ => false

def Roomy (hashFun : Key → UInt32) (system : System) : Call → Prop
  | .insert key value => system.db.isOpen = true → lookup system.map key = none →
      roomy hashFun system.db key value = true
  | _ => True

instance (hashFun : Key → UInt32) (system : System) (call : Call) :
    Decidable (Roomy hashFun system call) := by
  unfold Roomy
  cases call <;> infer_instance

/-- What the database promises whoever calls it next. -/
structure Sound (hashFun : Key → UInt32) (system : System) : Prop where
  /-- no key is in the map twice -/
  distinct : (system.map.map Prod.fst).Nodup
  answers : ∀ call, Fitting system call → Roomy hashFun system call →
    ∃ db, exec hashFun system.db call = some (db, expected system call)
  count : system.db.sfh.numItems = system.map.length
  disjoint : system.db.isOpen = true → Disjoint system.db

variable {hashFun : Key → UInt32} {db : HashDb} {chains : Nat → List Block} {map : Map}

private theorem loadChain_holds {bucketSize : Nat} {file : ByteStore} {fuel : Nat} {block : Block}
    {behind : List Block} {sa : BucketChain} {next : Chain} (hfuel : behind.length + 1 < fuel)
    (hfits : ∀ other ∈ block :: behind, other.Fits bucketSize) (hloaded : sa.isLoaded = true)
    (hholds : Holds bucketSize file (sa :: next) (block :: behind)) :
    ∃ rest, loadChain bucketSize file fuel (sa :: next) = some (sa :: rest) ∧
      rest.length = behind.length ∧ (∀ bucket ∈ sa :: rest, bucket.isLoaded = true) ∧
      Holds bucketSize file (sa :: rest) (block :: behind) := by
  induction fuel generalizing block behind sa next with
  | zero => exact absurd hfuel (Nat.not_lt_zero _)
  | succ fuel ih =>
    have hbehind : ∀ other ∈ behind, other.Fits bucketSize :=
      fun other hother => hfits other (List.mem_cons_of_mem _ hother)
    unfold loadChain
    rcases loadNext_cases hbehind hloaded hholds with
      ⟨hend, hnext⟩ | ⟨later, others, following, rest, loaded, hmore, hload, hfollowing, hrest⟩
    · subst hend hnext
      refine ⟨[], ?_, rfl, List.forall_mem_singleton.mpr hloaded, hholds⟩
      cases fuel with
      | zero => exact absurd hfuel (Nat.lt_irrefl 1)
      | succ fuel => rfl
    · subst hmore
      obtain ⟨rest', hchain, hlength, hall, hholdsRest⟩ :=
        ih (Nat.lt_of_succ_lt_succ hfuel) hbehind hfollowing hrest
      refine ⟨following :: rest', ?_, ?_, ?_, hholds.behind_loaded hholdsRest⟩
      · rw [hload, hchain]
        rfl
      · rw [List.length_cons, List.length_cons, hlength]
      · exact List.forall_mem_cons.mpr ⟨hloaded, hall⟩

theorem Attached.blocks (hdb : Attached hashFun db chains map) {idx : Nat}
    (hidx : idx < 2 ^ db.sfh.dpow) :
    ∃ chain, db.blocks idx = some chain ∧ chain.length = (chains idx).length ∧
      (∀ bucket ∈ chain, bucket.isLoaded = true) ∧
      Holds db.sfh.bucketSize db.file chain (chains idx) := by
  obtain ⟨henter, hempty⟩ := hdb.enter hidx
  have hfits := hdb.layout.fits idx hidx
  have hle := hdb.layout.chain_length_le hidx
  unfold HashDb.blocks
  cases hentry : db.enter idx with
  | nil =>
    rw [hempty hentry]
    exact ⟨[], rfl, rfl, List.forall_mem_nil _, trivial⟩
  | cons bucket next =>
    rw [hentry] at henter
    obtain ⟨activeNum, loaded, rest, block, behind, hchain, hload, hloaded, hholds⟩ :=
      load_holds hfits henter
    rw [hchain] at hfits hle ⊢
    have hfuel : behind.length + 1 < db.sfh.nBlock + 2 := Nat.lt_succ_of_le (Nat.le_succ_of_le hle)
    obtain ⟨more, hall, hlength, hevery, hmore⟩ := loadChain_holds hfuel hfits hloaded hholds
    rw [hload]
    refine ⟨loaded :: more, hall, ?_, hevery, hmore⟩
    rw [List.length_cons, List.length_cons, hlength]

theorem Holds.map_fpos {bucketSize : Nat} {file : ByteStore} {chain : Chain} {blocks : List Block}
    (hholds : Holds bucketSize file chain blocks) (hlength : chain.length = blocks.length) :
    chain.map BucketChain.fpos = blocks.map Block.fpos := by
  induction chain generalizing blocks with
  | nil => rw [List.eq_nil_of_length_eq_zero hlength.symm]; rfl
  | cons bucket next ih =>
    cases blocks with
    | nil => exact absurd hlength (Nat.succ_ne_zero _)
    | cons block behind =>
      rw [List.map_cons, List.map_cons, hholds.1.fpos, ih hholds.2 (Nat.succ.inj hlength)]

theorem Attached.disjoint (hdb : Attached hashFun db chains map) : Disjoint db := by
  have hall : ∀ i, ∃ chain, i < 2 ^ db.sfh.dpow →
      db.blocks i = some chain ∧ chain.map BucketChain.fpos = (chains i).map Block.fpos := by
    intro i
    by_cases hi : i < 2 ^ db.sfh.dpow
    · obtain ⟨chain, hblocks, hlength, -, hholds⟩ := hdb.blocks hi
      exact ⟨chain, fun _ => ⟨hblocks, hholds.map_fpos hlength⟩⟩
    · exact ⟨[], fun h => absurd h hi⟩
  choose blocks hblocks using hall
  have hdir := hdb.directory
  have hplaces : (contents db.directorySize blocks).map BucketChain.fpos =
      contents (2 ^ db.sfh.dpow) fun i => (chains i).map Block.fpos := by
    rw [hdir]
    refine List.map_flatMap.trans (contents_congr fun i hi => ?_)
    exact (hblocks i hi).2
  have hplaced : ∀ pos ∈ (contents db.directorySize blocks).map BucketChain.fpos,
      ∃ k, pos = base db.sfh.dpow + db.sfh.bucketSize * k := by
    intro pos hpos
    rw [hplaces] at hpos
    obtain ⟨i, hi, hmem⟩ := mem_contents.mp hpos
    obtain ⟨block, hblock, rfl⟩ := List.mem_map.mp hmem
    obtain ⟨k, -, hk⟩ := hdb.layout.placed i hi block hblock
    exact ⟨k, hk⟩
  refine ⟨blocks, fun i hi => (hblocks i (by rw [← hdir]; exact hi)).1, ?_, ?_⟩
  · intro bucket hbucket
    obtain ⟨k, hk⟩ := hplaced bucket.fpos (List.mem_map_of_mem hbucket)
    rw [hk, hdir]
    exact Nat.le_add_right _ _
  · have hnodup := hdb.layout.apart
    rw [← hplaces] at hnodup
    refine (List.pairwise_map.mp hnodup).imp_of_mem ?_
    intro left right hleft hright hne
    obtain ⟨k, hk⟩ := hplaced left.fpos (List.mem_map_of_mem hleft)
    obtain ⟨l, hl⟩ := hplaced right.fpos (List.mem_map_of_mem hright)
    have hdifferent : left.fpos ≠ right.fpos := hne
    rw [hk, hl] at hdifferent ⊢
    exact places_apart hdifferent

theorem Attached.room (hdb : Attached hashFun db chains map) {key : Key} {value : Value}
    (hroomy : roomy hashFun db key value = true) :
    Room db.sfh (chains (slot hashFun db.sfh.dpow key)) key value := by
  have hidx := slot_lt hashFun db.sfh.dpow key
  obtain ⟨chain, hblocks, hlength, hall, hholds⟩ := hdb.blocks hidx
  unfold roomy at hroomy
  rw [hdb.index_eq, hblocks] at hroomy
  have hfits := hdb.layout.fits _ hidx
  generalize chains (slot hashFun db.sfh.dpow key) = blocks at *
  unfold Room
  rcases List.eq_nil_or_concat chain with hnil | ⟨front, last, hchain⟩
  · rw [hnil] at hroomy hlength
    rw [List.eq_nil_of_length_eq_zero hlength.symm]
    have hplace : HasPlace db.sfh := of_decide_eq_true hroomy
    exact hplace
  · rw [List.concat_eq_append] at hchain
    have hget : chain[front.length]? = some last := by
      rw [hchain, List.getElem?_append_right (Nat.le_refl _), Nat.sub_self]
      rfl
    obtain ⟨block, hblock, hshows⟩ := hholds.getElem? hget
    have hlast : blocks.getLast? = some block := by
      rw [List.getLast?_eq_getElem?, ← hlength, hchain, List.length_append]
      exact hblock
    have hloaded := hall last (List.mem_of_getElem? hget)
    have hfitsBlock := hfits block (List.mem_of_getElem? hblock)
    simp only [hchain, List.getLast?_concat, hshows.str hloaded, hshows.num hloaded, Option.bind_some,
      scan_block hfitsBlock hdb.layout.size] at hroomy
    rw [hlast]
    simp only
    rcases place_cases key block.records 0 with
      ⟨left, found, right, -, -, hplace⟩ | ⟨-, hplace⟩
    · rw [hplace] at hroomy
      cases hroomy
    · rw [hplace, Nat.zero_add] at hroomy
      simp only at hroomy
      split_ifs at hroomy ⊢ with hfull
      · exact of_decide_eq_true hroomy
      · have hcount := of_decide_eq_true hroomy
        rwa [Block.num, Int32.toNatClampNeg_ofNat_of_lt hfitsBlock.countable] at hcount

/-- The chains of the database hold the records of the map. -/
def Inv (hashFun : Key → UInt32) (system : System) : Prop :=
  ∃ chains, (system.db.isOpen = true ∧ Attached hashFun system.db chains system.map) ∨
    Closed hashFun system.db chains system.map

theorem Attached.exec (hdb : Attached hashFun db chains map) (hopen : db.isOpen = true)
    {call : Call} (hfitting : Fitting ⟨db, map⟩ call) (hroomy : Roomy hashFun ⟨db, map⟩ call) :
    ∃ next, Db.exec hashFun db call = some (next, expected ⟨db, map⟩ call) ∧
      Inv hashFun ⟨next, remember ⟨db, map⟩ call⟩ := by
  cases call with
  | insert key value =>
    obtain ⟨next, newChains, hinsert, hstill, hnext⟩ := hdb.insert hopen hfitting.1 hfitting.2
      fun habsent => hdb.room (hroomy hopen habsent)
    refine ⟨next, ?_, newChains, Or.inl ⟨hstill, ?_⟩⟩
    · simp only [Db.exec, hinsert, Option.map_some, expected, hopen, Bool.true_and]
    · simp only [remember, hopen, Bool.true_and]
      exact hnext
  | find key =>
    obtain ⟨entry, activeNum, hfind, hnext⟩ := hdb.find hopen key
    refine ⟨{ db with entry := entry, activeNum := activeNum }, ?_, chains,
      Or.inl ⟨hopen, hnext⟩⟩
    simp only [Db.exec, hfind, Option.map_some, expected, if_pos hopen]
  | del key =>
    obtain ⟨next, newChains, hdel, hstill, hnext⟩ := hdb.del hopen key
    refine ⟨next, ?_, newChains, Or.inl ⟨hstill, ?_⟩⟩
    · simp only [Db.exec, hdel, Option.map_some, expected, hopen, Bool.true_and]
    · simp only [remember, if_pos hopen]
      exact hnext
  | search key =>
    obtain ⟨next, hsearch, hstill, hnext⟩ := hdb.search hopen key
    refine ⟨next, ?_, chains, Or.inl ⟨hstill, hnext⟩⟩
    simp only [Db.exec, hsearch, Option.map_some, expected, hopen, Bool.true_and]
  | setCacheSize cacheSize =>
    have hnext : Attached hashFun (db.setCacheSize cacheSize) chains map :=
      { hdb with layout := hdb.layout, addr := hdb.addr, holds := hdb.holds }
    exact ⟨_, rfl, chains, Or.inl ⟨hopen, hnext⟩⟩
  | commit =>
    obtain ⟨file, entry, dirtyPageNum, hcommit, hnext, -⟩ := hdb.commit
    refine ⟨_, rfl, chains, Or.inl ⟨?_, hnext⟩⟩
    rw [hcommit]
    exact hopen
  | flush =>
    obtain ⟨file, dirtyPageNum, hflush, hnext, -⟩ := hdb.flush
    refine ⟨_, rfl, chains, Or.inl ⟨?_, hnext⟩⟩
    rw [hflush]
    exact hopen
  | close =>
    refine ⟨_, ?_, chains, Or.inr (hdb.close hopen)⟩
    simp only [Db.exec, expected, HashDb.close, hopen]
    rfl
  | open_ =>
    have hsame : db.open_ = (db, true) := by
      unfold HashDb.open_
      rw [if_pos hopen]
    refine ⟨db, ?_, chains, Or.inl ⟨hopen, hdb⟩⟩
    simp only [Db.exec, hsame, expected]

theorem Closed.exec (hdb : Closed hashFun db chains map) (call : Call) :
    ∃ next, Db.exec hashFun db call = some (next, expected ⟨db, map⟩ call) ∧
      Inv hashFun ⟨next, remember ⟨db, map⟩ call⟩ := by
  have hclosed := hdb.isOpen
  have hrefuse : (!db.isOpen) = true := by
    rw [hclosed]
    rfl
  cases call with
  | insert key value =>
    have hinsert : db.insert hashFun key value = some (db, false) := by
      unfold HashDb.insert
      rw [if_pos hrefuse]
    refine ⟨db, ?_, chains, Or.inr ?_⟩
    · simp only [Db.exec, hinsert, Option.map_some, expected, hclosed, Bool.false_and]
    · simp only [remember, hclosed, Bool.false_and]
      exact hdb
  | find key =>
    have hfind : db.find hashFun key = some (db, none) := by
      unfold HashDb.find
      rw [if_pos hrefuse]
    refine ⟨db, ?_, chains, Or.inr hdb⟩
    simp only [Db.exec, hfind, Option.map_some, expected, hclosed]
    rfl
  | del key =>
    have hdel : db.del hashFun key = some (db, false) := by
      unfold HashDb.del
      rw [if_pos hrefuse]
    refine ⟨db, ?_, chains, Or.inr ?_⟩
    · simp only [Db.exec, hdel, Option.map_some, expected, hclosed, Bool.false_and]
    · simp only [remember, hclosed]
      exact hdb
  | search key =>
    have hidle : db.flushCache = db := by
      unfold HashDb.flushCache
      rw [hdb.idle]
      exact if_neg (Nat.not_lt_zero _)
    have hsearch : db.search hashFun key = some (db, false) := by
      unfold HashDb.search HashDb.search_
      rw [hidle, if_pos hrefuse]
      rfl
    refine ⟨db, ?_, chains, Or.inr hdb⟩
    simp only [Db.exec, hsearch, Option.map_some, expected, hclosed, Bool.false_and]
  | setCacheSize cacheSize =>
    have hnext : Closed hashFun (db.setCacheSize cacheSize) chains map :=
      { hdb with header := hdb.header, layout := hdb.layout, addr := hdb.addr, disk := hdb.disk }
    exact ⟨_, rfl, chains, Or.inr hnext⟩
  | commit =>
    have hsame : db.commit = db := by
      unfold HashDb.commit
      rw [hdb.attached]
      rfl
    exact ⟨db.commit, rfl, chains, Or.inr (by rw [hsame]; exact hdb)⟩
  | flush =>
    have hsame : db.flush = { db with entry := fun _ => [], activeNum := 0 } := by
      unfold HashDb.flush HashDb.commit
      rw [if_neg (Bool.not_eq_true _ ▸ hdb.attached)]
      rfl
    refine ⟨db.flush, rfl, chains, Or.inr ?_⟩
    rw [hsame]
    exact { hdb with idle := rfl }
  | close =>
    have hsame : db.close = (db, true) := by
      unfold HashDb.close
      rw [if_pos hrefuse]
    refine ⟨db, ?_, chains, Or.inr hdb⟩
    simp only [Db.exec, hsame, expected]
  | open_ =>
    obtain ⟨hnext, hopen, hanswer⟩ := hdb.open_
    refine ⟨_, ?_, chains, Or.inl ⟨hopen, hnext⟩⟩
    simp only [Db.exec, hanswer, expected]

theorem Inv.exec {system : System} (hinv : Inv hashFun system) {call : Call}
    (hfitting : Fitting system call) (hroomy : Roomy hashFun system call) :
    ∃ next, Db.exec hashFun system.db call = some (next, expected system call) ∧
      Inv hashFun ⟨next, remember system call⟩ := by
  obtain ⟨chains, ⟨hopen, hdb⟩ | hdb⟩ := hinv
  · exact hdb.exec hopen hfitting hroomy
  · exact hdb.exec call

theorem Inv.step {system : System} {call : Call}
    (hallowed : Fitting system call ∧ Roomy hashFun system call) (hinv : Inv hashFun system) :
    ∃ next, Db.step hashFun system call = some next ∧ Inv hashFun next := by
  obtain ⟨next, hexec, hnext⟩ := hinv.exec hallowed.1 hallowed.2
  refine ⟨⟨next, remember system call⟩, ?_, hnext⟩
  unfold Db.step
  rw [hexec]
  rfl

theorem Inv.sound {system : System} (hinv : Inv hashFun system) : Sound hashFun system where
  distinct := by
    obtain ⟨chains, ⟨-, hdb⟩ | hdb⟩ := hinv
    · exact hdb.layout.distinct
    · exact hdb.layout.distinct
  answers := fun call hfitting hroomy => by
    obtain ⟨next, hexec, -⟩ := hinv.exec hfitting hroomy
    exact ⟨next, hexec⟩
  count := by
    obtain ⟨chains, ⟨-, hdb⟩ | hdb⟩ := hinv
    · rw [hdb.count, Nat.mod_eq_of_lt hdb.layout.map_length_lt]
    · rw [hdb.count, Nat.mod_eq_of_lt hdb.layout.map_length_lt]
  disjoint := fun hopen => by
    obtain ⟨chains, ⟨-, hdb⟩ | hdb⟩ := hinv
    · exact hdb.disjoint
    · rw [hdb.isOpen] at hopen
      cases hopen

/-- A database with these settings, opened on a new file. -/
def start (bucketSize dpow : Nat) : System :=
  ⟨((HashDb.create.setBucketSize bucketSize).setDegree dpow).open_.1, []⟩

private theorem start_attached {bucketSize dpow : Nat} (hsize : bucketSize < 2 ^ 64)
    (hdegree : dpow < 31) :
    (start bucketSize dpow).db.isOpen = true ∧
    (start bucketSize dpow).db.sfh =
      { HashHeader.create with bucketSize := bucketSize, dpow := dpow } ∧
    Attached hashFun (start bucketSize dpow).db (fun _ => []) [] := by
  have hbase : base dpow ≤ 2 ^ 64 := by
    have hpow : 2 ^ dpow ≤ 2 ^ 31 := Nat.pow_le_pow_right (by decide) (Nat.le_of_lt hdegree)
    unfold base HashHeader.size
    omega
  have hempty : ∀ {α : Type} (size : Nat), contents size (fun _ => ([] : List α)) = [] :=
    fun size => contents_empty size
  have hlayout : Layout hashFun bucketSize dpow 0 (fun _ => []) [] :=
    { size := hsize
      degree := hdegree
      blocks := Nat.two_pow_pos 64
      within := hbase
      fits := fun _ _ block hblock => nomatch hblock
      placed := fun _ _ block hblock => nomatch hblock
      apart := by simp [hempty]
      filed := fun _ _ entry hentry => nomatch hentry
      perm := by simp [recordsOf, hempty]
      distinct := List.nodup_nil }
  have hnew : Attached hashFun { (HashDb.create.setBucketSize bucketSize).setDegree dpow with
      exists_ := true
      file := fun _ => 0
      attached := true
      entry := fun _ => []
      bucketAddr := fun _ => 0 } (fun _ => []) [] :=
    ⟨rfl, rfl, rfl, rfl, rfl, hlayout, rfl, fun _ _ => rfl, fun _ _ => trivial⟩
  obtain ⟨file, entry, dirtyPageNum, hcommit, hcommitted, -⟩ := hnew.commit
  rw [hcommit] at hcommitted
  have hopened : (start bucketSize dpow).db =
      { (HashDb.create.setBucketSize bucketSize).setDegree dpow with
        exists_ := true
        file := file
        attached := true
        entry := entry
        bucketAddr := fun _ => 0
        dirtyPageNum := dirtyPageNum
        isOpen := true } := by
    unfold start HashDb.open_
    rw [if_neg (show ¬((HashDb.create.setBucketSize bucketSize).setDegree dpow).isOpen = true from
      Bool.false_ne_true), if_pos (show (!((HashDb.create.setBucketSize bucketSize).setDegree
      dpow).exists_) = true from rfl)]
    simp only [hcommit]
  rw [hopened]
  exact ⟨rfl, rfl, { hcommitted with }⟩

theorem start_inv {bucketSize dpow : Nat} (hsize : bucketSize < 2 ^ 64) (hdegree : dpow < 31) :
    Inv hashFun (start bucketSize dpow) := by
  obtain ⟨hopen, -, hdb⟩ := start_attached hsize hdegree
  exact ⟨fun _ => [], Or.inl ⟨hopen, hdb⟩⟩

/-- Under any calls, with any caching, flushing and reopening in between, a database
is the finite map of its history, as long as its counters of records do not overflow. -/
theorem db_is_map (hashFun : Key → UInt32) {bucketSize dpow : Nat} (hsize : bucketSize < 2 ^ 64)
    (hdegree : dpow < 31) {calls : List Call}
    (hcalls : Along (step hashFun) (fun system call => Fitting system call ∧
      Roomy hashFun system call) (start bucketSize dpow) calls) :
    ∃ final, run (step hashFun) (start bucketSize dpow) calls = some final ∧
      Sound hashFun final := by
  obtain ⟨final, hrun, hinv⟩ :=
    run_along (fun _ _ hallowed hinv => Inv.step hallowed hinv) hcalls (start_inv hsize hdegree)
  exact ⟨final, hrun, hinv.sound⟩

theorem db_is_map_reopened : ∃ final,
    run (step HashDb.sdbHashFun) (start 64 0) [.insert [1] [2, 3], .insert [4] [], .flush,
      .find [1], .insert [1] [], .del [1], .close, .open_, .find [4]] = some final ∧
    Sound HashDb.sdbHashFun final :=
  db_is_map HashDb.sdbHashFun (by decide) (by decide) (by decide +kernel)

def numbered (i : Nat) : Key := Bytes.encode 4 i

def numberedRecords (n : Nat) : Map := (List.range n).map fun i => (numbered i, [])

def filling (n : Nat) : List Call := (List.range n).map fun i => .insert (numbered i) []

/-- Blocks with room for more than `2 ^ 31` of these records. -/
def largeBlock : Nat := 2 ^ 36

@[simp] private theorem numbered_length (i : Nat) :
    (numbered i).length = 4 := Bytes.encode_length 4 i

private theorem numbered_ne_nil (i : Nat) : numbered i ≠ [] := by
  intro hnil
  have hlength := numbered_length i
  rw [hnil] at hlength
  cases hlength

theorem numbered_inj {i j : Nat} (hi : i < 2 ^ 32) (hj : j < 2 ^ 32)
    (hsame : numbered i = numbered j) : i = j := by
  have hdecode := congrArg Bytes.decode hsame
  unfold numbered at hdecode
  rw [Bytes.decode_encode, Bytes.decode_encode] at hdecode
  have hbytes : 256 ^ 4 = 2 ^ 32 := rfl
  rwa [hbytes, Nat.mod_eq_of_lt hi, Nat.mod_eq_of_lt hj] at hdecode

private theorem numberedRecords_succ (n : Nat) :
    numberedRecords (n + 1) = numberedRecords n ++ [(numbered n, [])] := by
  unfold numberedRecords
  rw [List.range_succ, List.map_append]
  rfl

@[simp] private theorem numberedRecords_length (n : Nat) : (numberedRecords n).length = n := by
  unfold numberedRecords
  rw [List.length_map, List.length_range]

private theorem packed_numberedRecords (n : Nat) :
    (packed (numberedRecords n)).length = 20 * n := by
  induction n with
  | zero => rfl
  | succ n ih =>
    rw [numberedRecords_succ, packed_append, List.length_append, ih, packed_cons, packed_nil,
      List.append_nil, record_length, numbered_length, List.length_nil]
    omega

private theorem lookup_numbered {n i : Nat} (hn : n ≤ 2 ^ 32) (hi : i < 2 ^ 32) :
    lookup (numberedRecords n).reverse (numbered i) = if i < n then some [] else none := by
  split_ifs with hlt
  · have hmem : (numbered i, []) ∈ (numberedRecords n).reverse :=
      List.mem_reverse.mpr (List.mem_map.mpr ⟨i, List.mem_range.mpr hlt, rfl⟩)
    cases hfound : lookup (numberedRecords n).reverse (numbered i) with
    | none => exact absurd rfl (lookup_eq_none.mp hfound _ hmem)
    | some value =>
      unfold lookup at hfound
      obtain ⟨entry, hentry, rfl⟩ := Option.map_eq_some_iff.mp hfound
      have hin := List.mem_reverse.mp (List.mem_of_find?_eq_some hentry)
      obtain ⟨j, -, rfl⟩ := List.mem_map.mp hin
      rfl
  · refine lookup_eq_none.mpr fun entry hentry hsame => ?_
    obtain ⟨j, hj, rfl⟩ := List.mem_map.mp (List.mem_reverse.mp hentry)
    have hjn := List.mem_range.mp hj
    exact hlt (numbered_inj (Nat.lt_of_lt_of_le hjn hn) hi hsame ▸ hjn)

/-- A database with one bucket, whose one block holds the first `n` numbers. -/
structure Filled (hashFun : Key → UInt32) (n : Nat) (system : System) : Prop where
  isOpen : system.db.isOpen = true
  bucketSize : system.db.sfh.bucketSize = largeBlock
  dpow : system.db.sfh.dpow = 0
  map : system.map = (numberedRecords n).reverse
  block : ∃ chains block, Attached hashFun system.db chains system.map ∧ chains 0 = [block] ∧
    block.records = numberedRecords n

theorem slot_zero (hashFun : Key → UInt32) (key : Key) : slot hashFun 0 key = 0 := Nat.mod_one _

private theorem fitting_numbered {system : System} (hsize : system.db.sfh.bucketSize = largeBlock)
    (i : Nat) : Fitting system (.insert (numbered i) []) := by
  refine ⟨numbered_ne_nil i, ?_⟩
  rw [hsize, numbered_length, List.length_nil]
  decide

private theorem step_insert {system : System} {key : Key} {value : Value} {next : HashDb}
    (hopen : system.db.isOpen = true) (habsent : lookup system.map key = none)
    (hinsert : HashDb.insert hashFun system.db key value = some (next, true)) :
    step hashFun system (.insert key value) = some ⟨next, (key, value) :: system.map⟩ := by
  simp only [step, exec, hinsert, Option.map_some, remember, hopen, habsent, Option.isNone_none,
    Bool.and_self, if_true]

private theorem filled_first : ∃ system,
    step hashFun (start largeBlock 0) (.insert (numbered 0) []) = some system ∧
      Filled hashFun 1 system := by
  obtain ⟨hopen, hsfh, hdb⟩ := @start_attached hashFun largeBlock 0 (by decide) (by decide)
  have hsize : (start largeBlock 0).db.sfh.bucketSize = largeBlock := by rw [hsfh]
  have hdpow : (start largeBlock 0).db.sfh.dpow = 0 := by rw [hsfh]
  rcases hdb.insert_cases hopen (numbered 0) [] with
    ⟨hpresent, -⟩ | ⟨habsent, searched, locn, hinsert, hstill, hheader, hdbNew, hplace⟩
  · cases hpresent
  rcases hplace with ⟨rfl, hnil⟩ | ⟨place, bucket, last, rfl, hend⟩
  · obtain ⟨hkey, hfit⟩ := fitting_numbered hsize 0
    have hroom : HasPlace searched.sfh := by
      rw [hheader, hsfh]
      decide
    rw [← hheader] at hfit hinsert
    obtain ⟨next, newChains, newBlock, hadd, hopenNext, hsfhNext, hchain, hnew, hnext⟩ :=
      hdbNew.addFirst hkey hfit rfl hroom habsent
    rw [hadd] at hinsert
    rw [hheader] at hsfhNext hchain
    refine ⟨_, step_insert hopen habsent hinsert, hopenNext.trans hstill, ?_, ?_, rfl, newChains,
      newBlock, hnext, ?_, hnew⟩
    · rw [hsfhNext]
      exact hsize
    · rw [hsfhNext]
      exact hdpow
    · rwa [hdpow, slot_zero] at hchain
  · exact absurd hend.meant (by simp)

theorem Filled.search {n : Nat} {system : System} (hfilled : Filled hashFun n system)
    (hlt : n ≤ 2 ^ 31) : ∃ searched bucket chains block,
      HashDb.insert hashFun system.db (numbered n) [] =
        (searched.putRecord 0 ⟨0, 20 * n⟩ (numbered n) []).map (·, true) ∧
      searched.isOpen = true ∧ searched.sfh = system.db.sfh ∧
      Attached hashFun searched chains system.map ∧ chains 0 = [block] ∧
      block.records = numberedRecords n ∧ lookup system.map (numbered n) = none ∧
      searched.entry 0 = [bucket] ∧ bucket.isLoaded = true := by
  obtain ⟨hopen, hsize, hdpow, hmap, chains, block, hdb, hchain, hrecords⟩ := hfilled
  have habsent : lookup system.map (numbered n) = none := by
    rw [hmap, lookup_numbered (by omega) (by omega), if_neg (Nat.lt_irrefl n)]
  rcases hdb.insert_cases hopen (numbered n) [] with
    ⟨hpresent, -⟩ | ⟨-, searched, locn, hinsert, hstill, hsfh, hdbNew, hplace⟩
  · rw [habsent] at hpresent
    cases hpresent
  rw [hdpow, slot_zero] at hinsert hplace
  rcases hplace with ⟨-, hnil⟩ | ⟨⟨depth, p⟩, bucket, last, rfl, hend⟩
  · rw [hchain] at hnil
    cases hnil
  have hdepth : depth = 0 := by
    have hlength := hend.length
    rw [hchain] at hlength
    exact (Nat.succ.inj hlength).symm
  subst hdepth
  have hlast : last = block := by
    have hget := hend.meant
    rw [hchain] at hget
    exact (Option.some.inj hget).symm
  subst hlast
  have hp : p = 20 * n := by
    rw [← packed_numberedRecords, ← hrecords]
    exact hend.p
  have hfull : ¬p > HashDb.lastPlace searched.sfh.bucketSize (numbered n).length
      ([] : Value).length := by
    rw [hsfh, hsize, hp, numbered_length, List.length_nil, lastPlace_eq (by decide) (by decide)]
    unfold largeBlock
    omega
  refine ⟨searched, bucket, chains, last, ?_, hstill, hsfh, hdbNew, hchain, hrecords, habsent, ?_,
    hend.loaded⟩
  · rw [hinsert, ← hp]
    unfold HashDb.addRecord
    simp only [if_neg hfull]
  · have hentry := (split_at hend.inMemory).1
    rw [hend.last] at hentry
    exact hentry

theorem Filled.next {n : Nat} {system : System} (hfilled : Filled hashFun n system)
    (hlt : n + 1 < 2 ^ 31) : ∃ next,
      step hashFun system (.insert (numbered n) []) = some next ∧ Filled hashFun (n + 1) next := by
  obtain ⟨searched, bucket, chains, block, hinsert, hstill, hsfh, hdb, hchain, hrecords, habsent,
    hentry, hloaded⟩ := hfilled.search (by omega)
  obtain ⟨hopen, hsize, hdpow, hmap, -⟩ := hfilled
  have hidx : 0 < 2 ^ searched.sfh.dpow := Nat.two_pow_pos _
  have hslot : slot hashFun searched.sfh.dpow (numbered n) = 0 := by
    rw [hsfh, hdpow, slot_zero]
  have hbucket : (searched.entry 0)[(Cursor.mk 0 (20 * n)).depth]? = some bucket := by rw [hentry]; rfl
  have hblock : (chains 0)[(Cursor.mk 0 (20 * n)).depth]? = some block := by rw [hchain]; rfl
  have hp : (Cursor.mk 0 (20 * n)).p = (packed block.records).length := by
    rw [hrecords, packed_numberedRecords]
  have hroom : (packed block.records).length + (record (numbered n) []).length + 20 ≤
      searched.sfh.bucketSize := by
    rw [record_length, hrecords, packed_numberedRecords, numbered_length, hsfh, hsize,
      List.length_nil]
    unfold largeBlock
    omega
  have hcount : block.records.length + 1 < 2 ^ 31 := by
    rw [hrecords, numberedRecords_length]
    exact hlt
  obtain ⟨next, newBlock, hput, hopenNext, hheader, hnew, hnext⟩ :=
    hdb.putRecord hidx hslot hbucket hblock hloaded hp (numbered_ne_nil n) hroom hcount habsent
  rw [hput] at hinsert
  refine ⟨_, step_insert hopen habsent hinsert, hopenNext.trans hstill, ?_, ?_, ?_, _, newBlock,
    hnext, ?_, ?_⟩
  · rw [hheader, hsfh]
    exact hsize
  · rw [hheader, hsfh]
    exact hdpow
  · rw [hmap, numberedRecords_succ, List.reverse_append]
    rfl
  · rw [Function.update_self, hchain]
    rfl
  · rw [hnew, hrecords, numberedRecords_succ]

private theorem filling_succ (n : Nat) : filling (n + 1) = filling n ++
    [.insert (numbered n) []] := by
  unfold filling
  rw [List.range_succ, List.map_append]
  rfl

private theorem along_single {system : System} (hsize : system.db.sfh.bucketSize = largeBlock)
    (n : Nat) :
    Along (step hashFun) Fitting system [.insert (numbered n) []] :=
  ⟨fitting_numbered hsize n, fun _ _ => trivial⟩

private theorem filled_run {n : Nat} (hn : 0 < n) (hlt : n < 2 ^ 31) :
    Along (step hashFun) Fitting (start largeBlock 0) (filling n) ∧
    ∃ system, run (step hashFun) (start largeBlock 0) (filling n) = some system ∧
      Filled hashFun n system := by
  induction n with
  | zero => exact absurd hn (Nat.lt_irrefl 0)
  | succ n ih =>
    rw [filling_succ]
    rcases Nat.eq_zero_or_pos n with rfl | hpos
    · obtain ⟨system, hstep, hfilled⟩ := @filled_first hashFun
      obtain ⟨-, hsfh, -⟩ := @start_attached hashFun largeBlock 0 (by decide) (by decide)
      exact ⟨along_single (by rw [hsfh]) 0, system,
        run_cons_eq_some.mpr ⟨system, hstep, rfl⟩, hfilled⟩
    · obtain ⟨halong, system, hrun, hfilled⟩ := ih hpos (Nat.lt_of_succ_lt hlt)
      obtain ⟨next, hstep, hnext⟩ := hfilled.next hlt
      refine ⟨along_append halong fun middle hmiddle => ?_, next, ?_, hnext⟩
      · rw [Option.some.inj (hmiddle.symm.trans hrun)]
        exact along_single hfilled.bucketSize n
      · rw [run_append, hrun]
        exact run_cons_eq_some.mpr ⟨next, hstep, rfl⟩

private theorem find_uncounted (hashFun : Key → UInt32) (db : HashDb) (bucket : BucketChain)
    (str : List UInt8) (key : Key) (hopen : db.isOpen = true) (hindex : HashDb.index hashFun db key = 0)
    (hentry : db.entry 0 = [bucket]) (hloaded : bucket.isLoaded = true)
    (hstr : bucket.str = some str) (hnum : bucket.num.toNatClampNeg = 0) :
    ∃ next, HashDb.find hashFun db key = some (next, none) := by
  have hwalk : HashDb.searchChain db.sfh.bucketSize db.file key (db.sfh.nBlock + 1) [bucket] =
      some ⟨false, ⟨0, 0⟩, [bucket], 0⟩ := by
    unfold HashDb.searchChain
    simp only [hstr, hnum, Option.bind_eq_bind, Option.bind_some, scan, BucketChain.loadNext,
      List.isEmpty_nil, if_true]
  have henter : db.enter 0 = [bucket] := by
    unfold HashDb.enter
    rw [hentry]
  unfold HashDb.find HashDb.search_
  rw [if_neg (not_closed hopen), if_neg (not_closed hopen)]
  simp only [hindex, henter, HashDb.load, hloaded, if_true, hwalk, Option.bind_eq_bind,
    Option.bind_some, Bool.not_false]
  exact ⟨_, rfl⟩

theorem Filled.overflow {n : Nat} {system : System} (hfilled : Filled hashFun n system)
    (hlast : n + 1 = 2 ^ 31) : ∃ next,
      step hashFun system (.insert (numbered n) []) = some next ∧
      next.map = (numberedRecords (n + 1)).reverse ∧
      ∀ key, ∃ db, exec hashFun next.db (.find key) = some (db, .value none) := by
  obtain ⟨searched, bucket, chains, block, hinsert, hstill, hsfh, hdb, hchain, hrecords, habsent,
    hentry, hloaded⟩ := hfilled.search (by omega)
  obtain ⟨hopen, hsize, hdpow, hmap, -⟩ := hfilled
  have hidx : 0 < 2 ^ searched.sfh.dpow := Nat.two_pow_pos _
  have hfits := hdb.layout.fits 0 hidx block (by rw [hchain]; exact List.mem_cons_self)
  obtain ⟨hshows, -⟩ : Shows searched.sfh.bucketSize searched.file bucket [] block [] ∧
      Holds searched.sfh.bucketSize searched.file [] [] := by
    have hholds := hdb.holds 0 hidx
    rw [hentry, hchain] at hholds
    exact hholds
  have hrest : (record (numbered n) []).length ≤ block.rest.length := by
    have hlength := hfits.length
    unfold Block.str BucketChain.blockSize at hlength
    rw [List.length_append, hrecords, packed_numberedRecords, hsfh, hsize] at hlength
    rw [record_length, numbered_length, List.length_nil]
    unfold largeBlock at hlength
    omega
  have hpoke := @poke_record block.records _ _ _ hrest
  have hp : (packed block.records).length = 20 * n := by rw [hrecords, packed_numberedRecords]
  rw [hp] at hpoke
  have hnum : (bucket.num + 1).toNatClampNeg = 0 := by
    rw [hshows.num hloaded, Block.num, hrecords, numberedRecords_length,
      show (1 : Int32) = Int32.ofNat 1 from rfl, ← Int32.ofNat_add, hlast]
    decide
  obtain ⟨dirtyPageNum, hdirty⟩ := setDirty_eq searched bucket
  generalize packed (block.records ++ [(numbered n, [])]) ++
    block.rest.drop (record (numbered n) []).length = str at hpoke
  have hput : searched.putRecord 0 ⟨0, 20 * n⟩ (numbered n) [] = some { searched with
      sfh := { searched.sfh with numItems := sizeAdd searched.sfh.numItems 1 }
      entry := Function.update searched.entry 0 [{ bucket with
        str := some str
        num := bucket.num + 1
        isDirty := true }]
      dirtyPageNum := dirtyPageNum } := by
    unfold HashDb.putRecord
    simp only [hentry, List.getElem?_cons_zero, Option.bind_eq_bind, Option.bind_some,
      hshows.str hloaded, Block.str, hpoke, hdirty, List.set_cons_zero]
  rw [hput] at hinsert
  refine ⟨_, step_insert hopen habsent hinsert, ?_, fun key => ?_⟩
  · rw [hmap, numberedRecords_succ, List.reverse_append]
    rfl
  · have hindex := hdb.index_eq key
    rw [hsfh, hdpow, slot_zero] at hindex
    obtain ⟨db, hfind⟩ := find_uncounted hashFun { searched with
      sfh := { searched.sfh with numItems := sizeAdd searched.sfh.numItems 1 }
      entry := Function.update searched.entry 0 [{ bucket with
        str := some str
        num := bucket.num + 1
        isDirty := true }]
      dirtyPageNum := dirtyPageNum } { bucket with
        str := some str
        num := bucket.num + 1
        isDirty := true } str key hstill hindex (by simp only [Function.update_self])
      hloaded rfl hnum
    refine ⟨db, ?_⟩
    unfold exec
    simp only [hfind, Option.map_some]

/-- With `2 ^ 31` records in one block the first of them is no longer found. -/
theorem full_block_forgets : ∃ final db,
    Along (step HashDb.sdbHashFun) Fitting (start largeBlock 0) (filling (2 ^ 31)) ∧
    run (step HashDb.sdbHashFun) (start largeBlock 0) (filling (2 ^ 31)) = some final ∧
    lookup final.map (numbered 0) = some [] ∧
    exec HashDb.sdbHashFun final.db (.find (numbered 0)) = some (db, .value none) := by
  obtain ⟨n, hlast⟩ : ∃ n, n + 1 = 2 ^ 31 := ⟨2 ^ 31 - 1, rfl⟩
  rw [← hlast, filling_succ]
  obtain ⟨halong, system, hrun, hfilled⟩ :=
    @filled_run HashDb.sdbHashFun n (by omega) (by omega)
  obtain ⟨final, hstep, hmap, hfind⟩ := hfilled.overflow hlast
  obtain ⟨db, hnone⟩ := hfind (numbered 0)
  refine ⟨final, db, along_append halong fun middle hmiddle => ?_, ?_, ?_, hnone⟩
  · rw [Option.some.inj (hmiddle.symm.trans hrun)]
    exact along_single hfilled.bucketSize n
  · rw [run_append, hrun]
    exact run_cons_eq_some.mpr ⟨final, hstep, rfl⟩
  · rw [hmap, lookup_numbered (by omega) (by omega), if_pos (Nat.succ_pos n)]

end Libsax.Db
