import Libsax.Db.HashDbIteration

/-! Runs in which values are exchanged. What such a run leaves can be found, and met by an
iteration, as in the map of its history. -/
namespace Libsax.Db

open Libsax.Lib

variable {hashFun : Key → UInt32}

inductive Request where
  | call (call : Call)
  | update (key : Key) (value : Value)
deriving DecidableEq, Repr

def execRequest (hashFun : Key → UInt32) (db : HashDb) : Request → Option (HashDb × Reply)
  | .call call => exec hashFun db call
  | .update key value => (db.update hashFun key value).map fun out => (out.1, .flag out.2)

def expectedRequest (system : System) : Request → Reply
  | .call call => expected system call
  | .update key value => .flag (system.db.isOpen && updates system.map key value)

def rememberRequest (system : System) : Request → Map
  | .call call => remember system call
  | .update key value => if system.db.isOpen then updated system.map key value else system.map

def stepRequest (hashFun : Key → UInt32) (system : System) (request : Request) : Option System :=
  (execRequest hashFun system.db request).map fun out => ⟨out.1, rememberRequest system request⟩

/-- The callers' records fit a block, and their keys are not empty. -/
def FittingRequest (system : System) : Request → Prop
  | .call call => Fitting system call
  | .update key value => Fitting system (.insert key value)

/-- There is room for a new record, and a value that is there keeps its size unless
the key has no other byte than `0xff`. -/
def SameSize (hashFun : Key → UInt32) (system : System) : Request → Prop
  | .call call => Roomy hashFun system call
  | .update key value => Roomy hashFun system (.insert key value) ∧
    ∀ old ∈ lookup system.map key, system.db.isOpen = true →
      old.length = value.length ∨ wiped key = true

instance (system : System) (request : Request) : Decidable (FittingRequest system request) := by
  unfold FittingRequest
  cases request <;> infer_instance

instance (hashFun : Key → UInt32) (system : System) (request : Request) :
    Decidable (SameSize hashFun system request) := by
  unfold SameSize
  cases request <;> infer_instance

/-- What the database promises between two requests: the records that are found, those the
blocks count and those an iteration meets are the records of the map. -/
structure SoundRequests (hashFun : Key → UInt32) (system : System) : Prop where
  sound : Sound hashFun system
  answers : ∀ request, FittingRequest system request → SameSize hashFun system request →
    ∃ db, execRequest hashFun system.db request = some (db, expectedRequest system request)
  records : system.db.isOpen = true →
    ∃ records, system.db.stored system.db.directorySize = some records ∧ records.Perm system.map
  iterated : system.db.isOpen = true → firstFits system.db = true →
    Iterates hashFun system.db system.map

theorem Inv.execRequest {system : System} (hinv : Inv hashFun system) {request : Request}
    (hfitting : FittingRequest system request) (hsame : SameSize hashFun system request) :
    ∃ next, Db.execRequest hashFun system.db request =
        some (next, expectedRequest system request) ∧
      Inv hashFun ⟨next, rememberRequest system request⟩ := by
  cases request with
  | call call => exact hinv.exec hfitting hsame
  | update key value =>
    obtain ⟨chains, ⟨hopen, hdb⟩ | hdb⟩ := hinv
    · obtain ⟨next, newChains, hupdate, hstill, hnext⟩ := hdb.update hopen hfitting.1 hfitting.2
        (fun habsent => hdb.room (hsame.1 hopen habsent))
        (fun old hold => hsame.2 old hold hopen)
      refine ⟨next, ?_, newChains, Or.inl ⟨hstill, ?_⟩⟩
      · simp only [Db.execRequest, hupdate, Option.map_some, expectedRequest, hopen, Bool.true_and]
      · simp only [rememberRequest, if_pos hopen]
        exact hnext
    · have hclosed := hdb.isOpen
      have hrefuse : HashDb.update hashFun system.db key value = some (system.db, false) := by
        unfold HashDb.update
        rw [hclosed]
        rfl
      refine ⟨system.db, ?_, chains, Or.inr ?_⟩
      · simp only [Db.execRequest, hrefuse, Option.map_some, expectedRequest, hclosed,
          Bool.false_and]
      · simp only [rememberRequest, hclosed]
        exact hdb

theorem Inv.stepRequest {system : System} {request : Request}
    (hallowed : FittingRequest system request ∧ SameSize hashFun system request)
    (hinv : Inv hashFun system) :
    ∃ next, Db.stepRequest hashFun system request = some next ∧ Inv hashFun next := by
  obtain ⟨next, hexec, hnext⟩ := hinv.execRequest hallowed.1 hallowed.2
  refine ⟨⟨next, rememberRequest system request⟩, ?_, hnext⟩
  unfold Db.stepRequest
  rw [hexec]
  rfl

theorem Inv.soundRequests {system : System} (hinv : Inv hashFun system) :
    SoundRequests hashFun system where
  sound := hinv.sound
  answers := fun request hfitting hsame => by
    obtain ⟨next, hexec, -⟩ := hinv.execRequest hfitting hsame
    exact ⟨next, hexec⟩
  records := fun hopen => by
    obtain ⟨chains, ⟨-, hdb⟩ | hdb⟩ := hinv
    · exact hdb.stored
    · rw [hdb.isOpen] at hopen
      cases hopen
  iterated := fun hopen hfirst => by
    obtain ⟨chains, ⟨-, hdb⟩ | hdb⟩ := hinv
    · exact hdb.iterates hopen hfirst
    · rw [hdb.isOpen] at hopen
      cases hopen

/-- Updates that keep the size of a value, or put a new key, act as those of a map, also for
whoever iterates over it behind them. -/
theorem updates_keep_map (hashFun : Key → UInt32) {bucketSize dpow : Nat}
    (hsize : bucketSize < 2 ^ 64) (hdegree : dpow < 31) {requests : List Request}
    (hrequests : Along (stepRequest hashFun) (fun system request => FittingRequest system request ∧
      SameSize hashFun system request) (start bucketSize dpow) requests) :
    ∃ final, run (stepRequest hashFun) (start bucketSize dpow) requests = some final ∧
      SoundRequests hashFun final := by
  obtain ⟨final, hrun, hinv⟩ := run_along
    (fun _ _ hallowed hinv => Inv.stepRequest hallowed hinv) hrequests (start_inv hsize hdegree)
  exact ⟨final, hrun, hinv.soundRequests⟩

/-- The records that are left after an update of each kind, met one by one. -/
theorem updates_keep_map_put : ∃ (final : System) (reader : Reader) (order : Map),
    run (stepRequest HashDb.sdbHashFun) (start 64 0) [.call (.insert [1] [2, 3]),
      .update [1] [4, 5], .update [2] [], .call .flush, .update [2] [],
      .call (.find [1])] = some final ∧ SoundRequests HashDb.sdbHashFun final ∧
    Reader.first HashDb.sdbHashFun final.db = some reader ∧
    order.Perm [([2], []), ([1], [4, 5])] ∧
    ∃ last, run (Reader.next HashDb.sdbHashFun) reader (List.replicate 2 ()) = some last ∧
      last.seen = order.take 3 ∧ last.locn = none := by
  obtain ⟨final, hfinal, hsound⟩ := @updates_keep_map HashDb.sdbHashFun 64 0 (by decide) (by decide)
    [.call (.insert [1] [2, 3]), .update [1] [4, 5], .update [2] [], .call .flush, .update [2] [],
      .call (.find [1])] (by decide +kernel)
  have hchecks : ((run (stepRequest HashDb.sdbHashFun) (start 64 0) [.call (.insert [1] [2, 3]),
      .update [1] [4, 5], .update [2] [], .call .flush, .update [2] [],
      .call (.find [1])]).elim false fun final => final.db.isOpen && firstFits final.db &&
        decide (final.map = [([2], []), ([1], [4, 5])]) &&
        (Reader.first HashDb.sdbHashFun final.db).elim false fun reader =>
          decide (Along (Reader.next HashDb.sdbHashFun) Reader.Safe reader
            (List.replicate 2 ()))) = true := by decide +kernel
  rw [hfinal] at hchecks
  simp only [Option.elim_some, Bool.and_eq_true, decide_eq_true_eq] at hchecks
  obtain ⟨⟨⟨hopen, hfirst⟩, hmap⟩, hsafe⟩ := hchecks
  obtain ⟨reader, order, hreader, hperm, hwalk⟩ := hsound.iterated hopen hfirst
  rw [hreader] at hsafe
  obtain ⟨last, hlast, hseen, hexhausted⟩ := hwalk 2 (of_decide_eq_true hsafe)
  rw [hmap] at hperm
  exact ⟨final, reader, order, hfinal, hsound, hreader, hperm, last, hlast, hseen,
    hexhausted.mpr (Nat.le_of_eq hperm.length_eq)⟩

/-- After an update that changes the size the old record is still counted, and is found
under another key and met by an iteration. -/
theorem update_leaves_remnant : ∃ final,
    Along (stepRequest HashDb.sdbHashFun) FittingRequest (start 64 0)
      [.call (.insert [1] [2, 3]), .update [1] [4]] ∧
    run (stepRequest HashDb.sdbHashFun) (start 64 0)
      [.call (.insert [1] [2, 3]), .update [1] [4]] = some final ∧
    final.map = [([1], [4])] ∧ final.db.sfh.numItems = 2 ∧
    final.db.stored final.db.directorySize = some [([0xff], [2, 3]), ([1], [4])] ∧
    (execRequest HashDb.sdbHashFun final.db (.call (.find [0xff]))).map Prod.snd =
      some (.value (some [2, 3])) ∧
    ((Reader.first HashDb.sdbHashFun final.db).bind fun reader =>
      (Reader.next HashDb.sdbHashFun reader ()).map Reader.seen) =
      some [([0xff], [2, 3]), ([1], [4])] := by
  have hends : (run (stepRequest HashDb.sdbHashFun) (start 64 0)
      [.call (.insert [1] [2, 3]), .update [1] [4]]).isSome = true := by decide +kernel
  refine ⟨_, ?_, (Option.some_get hends).symm, ?_⟩
  · decide +kernel
  · decide +kernel +revert

end Libsax.Db
