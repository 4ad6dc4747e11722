import Libsax.Db.HashDb
import Libsax.Db.HashDbLayout

/-! What the search, the commit and the eviction do to one chain: its blocks stay
what they are. -/
namespace Libsax.Db

open Libsax.Lib

variable {bucketSize : Nat} {file : ByteStore}

/-- Where a walk stopped: the blocks and the chain around that place. -/
structure Stop (bucketSize : Nat) (file : ByteStore) (key : Key) (blocks : List Block)
    (walk : Walk) where
  before : List Block
  block : Block
  after : List Block
  front : Chain
  bucket : BucketChain
  back : Chain
  split : blocks = before ++ block :: after
  chain : walk.chain = front ++ bucket :: back
  length : front.length = before.length
  depth : walk.locn.depth = before.length
  holds : Holds bucketSize file walk.chain blocks
  loaded : bucket.isLoaded = true
  passed : ∀ other ∈ before, ∀ entry ∈ other.records, entry.1 ≠ key

def Stop.Finds {key : Key} {blocks : List Block} {walk : Walk}
    (stop : Stop bucketSize file key blocks walk) : Prop :=
  walk.found = true ∧ ∃ left value right, stop.block.records = left ++ (key, value) :: right ∧
    (∀ entry ∈ left, entry.1 ≠ key) ∧ walk.locn.p = (packed left).length

/-- The key is nowhere, and the walk stopped behind the records of the last block. -/
def Stop.Misses {key : Key} {blocks : List Block} {walk : Walk}
    (stop : Stop bucketSize file key blocks walk) : Prop :=
  walk.found = false ∧ stop.after = [] ∧ stop.back = [] ∧
    (∀ entry ∈ stop.block.records, entry.1 ≠ key) ∧
    walk.locn.p = (packed stop.block.records).length

theorem scan_block {block : Block} (hfits : block.Fits bucketSize) (hsize : bucketSize < 2 ^ 64)
    (key : Key) :
    scan block.str key block.num.toNatClampNeg 0 = some (place key 0 block.records) := by
  have hscan := scan_packed key block.rest (hfits.sizes hsize) []
  have hcount : block.num.toNatClampNeg = block.records.length :=
    Int32.toNatClampNeg_ofNat_of_lt hfits.countable
  rw [hcount]
  exact hscan

theorem searchChain_stops (hsize : bucketSize < 2 ^ 64) (key : Key) {fuel : Nat} {block : Block}
    {behind : List Block} {sa : BucketChain} {next : Chain} (hfuel : behind.length < fuel)
    (hfits : ∀ other ∈ block :: behind, other.Fits bucketSize) (hloaded : sa.isLoaded = true)
    (hholds : Holds bucketSize file (sa :: next) (block :: behind)) :
    ∃ walk, HashDb.searchChain bucketSize file key fuel (sa :: next) = some walk ∧
      ∃ stop : Stop bucketSize file key (block :: behind) walk, stop.Finds ∨ stop.Misses := by
  induction fuel generalizing block behind sa next with
  | zero => exact absurd hfuel (Nat.not_lt_zero _)
  | succ fuel ih =>
    have hscan := scan_block (hfits block List.mem_cons_self) hsize key
    have hbehind : ∀ other ∈ behind, other.Fits bucketSize :=
      fun other hother => hfits other (List.mem_cons_of_mem _ hother)
    unfold HashDb.searchChain
    simp only [hholds.1.str hloaded, hholds.1.num hloaded, Option.bind_eq_bind, Option.bind_some,
      hscan]
    rcases place_cases key block.records 0 with
      ⟨left, value, right, hrecords, hleft, hplace⟩ | ⟨hnone, hplace⟩
    · rw [hplace]
      refine ⟨_, rfl, ⟨[], block, behind, [], sa, next, rfl, rfl, rfl, rfl, hholds, hloaded,
        fun _ hother => nomatch hother⟩, Or.inl ⟨rfl, left, value, right, hrecords, hleft, ?_⟩⟩
      exact Nat.zero_add _
    · rw [hplace]
      rcases loadNext_cases hbehind hloaded hholds with
        ⟨hend, hnext⟩ | ⟨later, others, following, rest, loaded, hmore, hload, hfollowing, hrest⟩
      · subst hend hnext
        refine ⟨_, rfl, ⟨[], block, [], [], sa, [], rfl, rfl, rfl, rfl, hholds, hloaded,
          fun _ hother => nomatch hother⟩, Or.inr ⟨rfl, rfl, rfl, hnone, ?_⟩⟩
        exact Nat.zero_add _
      · subst hmore
        obtain ⟨walk, hwalk, stop, hstop⟩ :=
          ih (Nat.lt_of_succ_lt_succ hfuel) hbehind hfollowing hrest
        simp only [hload, List.isEmpty_cons, Bool.false_eq_true, if_false, hwalk, Option.bind_some]
        have hchain : Holds bucketSize file (sa :: walk.chain) (block :: later :: others) := by
          refine ⟨{ hholds.1 with last := fun _ hnil => ?_ }, stop.holds⟩
          rw [stop.chain] at hnil
          exact absurd (List.append_eq_nil_iff.mp hnil).2 (List.cons_ne_nil _ _)
        refine ⟨_, rfl, ⟨block :: stop.before, stop.block, stop.after, sa :: stop.front,
          stop.bucket, stop.back, ?_, ?_, ?_, ?_, hchain, stop.loaded, ?_⟩, hstop⟩
        · exact congrArg (block :: ·) stop.split
        · exact congrArg (sa :: ·) stop.chain
        · rw [List.length_cons, List.length_cons, stop.length]
        · rw [List.length_cons, stop.depth]
        · exact List.forall_mem_cons.mpr ⟨hnone, stop.passed⟩

private theorem linkTo_eq {block : Block} {behind : List Block} {bucket : BucketChain}
    {next : Chain}
    (hloaded : bucket.isLoaded = true)
    (hholds : Holds bucketSize file (bucket :: next) (block :: behind)) :
    bucket.linkTo next = link behind := by
  obtain ⟨hshows, hrest⟩ := hholds
  cases next with
  | nil =>
    obtain ⟨hend, hnextfpos⟩ := hshows.last hloaded rfl
    subst hend
    exact hnextfpos
  | cons following rest =>
    cases behind with
    | nil => exact absurd hrest id
    | cons later others => exact hrest.1.fpos

theorem write_eq {block : Block} {behind : List Block} {bucket : BucketChain} {next : Chain}
    (hloaded : bucket.isLoaded = true) (hdirty : bucket.isDirty = true)
    (hholds : Holds bucketSize file (bucket :: next) (block :: behind)) :
    bucket.write file next =
      (file.write block.fpos (block.image (link behind)),
        { bucket with nextfpos := link behind, isDirty := false }, true) := by
  have hlink := linkTo_eq hloaded hholds
  obtain ⟨hshows, -⟩ := hholds
  unfold BucketChain.write
  simp only [hloaded, hdirty, hshows.str hloaded, hshows.num hloaded, hshows.fpos, hlink]
  have hbytes := ByteStore.write_append file block.fpos (Bytes.encode 4 block.num.toUInt32.toNat)
    (block.str ++ Bytes.encode 8 (link behind))
  rw [Bytes.encode_length] at hbytes
  rw [ByteStore.write_append, hbytes]
  rfl

theorem write_holds {block : Block} {before after : List Block} {bucket : BucketChain}
    {front back : Chain} (hfits : block.Fits bucketSize) (hlength : front.length = before.length)
    (hloaded : bucket.isLoaded = true) (hdirty : bucket.isDirty = true)
    (hapart : ∀ other ∈ before ++ after,
      ByteStore.Agree other.fpos bucketSize (bucket.write file back).1 file)
    (hholds : Holds bucketSize file (front ++ bucket :: back) (before ++ block :: after)) :
    Holds bucketSize (bucket.write file back).1 (front ++ (bucket.write file back).2.1 :: back)
      (before ++ block :: after) := by
  have hend := Holds.drop hlength hholds
  have hwrite := write_eq hloaded hdirty hend
  have hwritten : Holds bucketSize (bucket.write file back).1
      ((bucket.write file back).2.1 :: back) (block :: after) := by
    obtain ⟨hshows, hrest⟩ := hend
    refine ⟨?_, hrest.frame fun other hother => hapart other (List.mem_append_right _ hother)⟩
    rw [hwrite]
    refine ⟨hshows.fpos, hshows.str, hshows.num, ?_, fun _ => ?_⟩
    · intro hthere hnil
      obtain ⟨hafter, -⟩ := hshows.last hthere hnil
      exact ⟨hafter, by rw [hafter]; rfl⟩
    · have hread := @ByteStore.read_write file block.fpos (block.image (link after))
      rw [Block.image_length hfits] at hread
      exact hread
  clear hend hwrite
  induction front generalizing before with
  | nil =>
    rw [List.eq_nil_of_length_eq_zero hlength.symm]
    exact hwritten
  | cons first front ih =>
    cases before with
    | nil => exact absurd hlength (Nat.succ_ne_zero _)
    | cons other before =>
      obtain ⟨hshows, hrest⟩ := holds_cons.mp hholds
      have hother := hapart other List.mem_cons_self
      refine holds_cons.mpr ⟨?_, ih (Nat.succ.inj hlength)
        (fun later hlater => hapart later (List.mem_cons_of_mem _ hlater)) hrest⟩
      have hframed := hshows.frame hother
      refine ⟨hframed.fpos, hframed.str, hframed.num, ?_, hframed.stored⟩
      intro _ hnil
      exact absurd (List.append_eq_nil_iff.mp hnil).2 (List.cons_ne_nil _ _)

theorem evict_holds {chain : Chain} {blocks : List Block} (hholds : Holds bucketSize file chain blocks) :
    Holds bucketSize file (chain.map HashDb.evict) blocks := by
  induction chain generalizing blocks with
  | nil => exact hholds
  | cons bucket next ih =>
    cases blocks with
    | nil => exact hholds
    | cons block behind =>
      obtain ⟨hshows, hrest⟩ := hholds
      refine ⟨?_, ih hrest⟩
      unfold HashDb.evict
      split_ifs with hclean
      · have hstored := hshows.stored (by
          unfold HashDb.unloadable at hclean
          revert hclean
          cases bucket.isLoaded <;> cases bucket.isDirty <;> simp)
        have hgone : bucket.unload.1.isLoaded = true → False := fun h => Bool.false_ne_true h
        exact ⟨hshows.fpos, fun h => (hgone h).elim, fun h => (hgone h).elim,
          fun h => (hgone h).elim, fun _ => hstored⟩
      · refine ⟨hshows.fpos, hshows.str, hshows.num, ?_, hshows.stored⟩
        intro hthere hnil
        exact hshows.last hthere (List.map_eq_nil_iff.mp hnil)

theorem onDisk_of_clean {chain : Chain} {blocks : List Block}
    (hholds : Holds bucketSize file chain blocks)
    (hclean : ∀ bucket ∈ chain, (bucket.isLoaded && bucket.isDirty) = false) :
    OnDisk bucketSize file blocks := by
  induction chain generalizing blocks with
  | nil => exact hholds
  | cons bucket next ih =>
    cases blocks with
    | nil => trivial
    | cons block behind =>
      exact ⟨hholds.1.stored (hclean bucket List.mem_cons_self),
        ih hholds.2 fun other hother => hclean other (List.mem_cons_of_mem _ hother)⟩

end Libsax.Db
