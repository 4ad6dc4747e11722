import Libsax.Db.PackedRecords

/-! What a chain of blocks stands for. A block that is in memory shows its
records there; one that is not, or is clean, shows them in the file. -/
namespace Libsax.Db

open Libsax.Lib

theorem split_at {α : Type} {list : List α} {depth : Nat} {x : α} (hget : list[depth]? = some x) :
    list = list.take depth ++ x :: list.drop (depth + 1) ∧ (list.take depth).length = depth := by
  obtain ⟨hlt, hx⟩ := List.getElem?_eq_some_iff.mp hget
  refine ⟨?_, List.length_take_of_le (Nat.le_of_lt hlt)⟩
  rw [← hx, List.getElem_cons_drop, List.take_append_drop]

theorem set_at {α : Type} {list : List α} {depth : Nat} {x : α} (hget : list[depth]? = some x)
    (y : α) : list.set depth y = list.take depth ++ y :: list.drop (depth + 1) := by
  rw [List.set_eq_take_append_cons_drop, if_pos (List.getElem?_eq_some_iff.mp hget).1]

theorem drop_at {α : Type} {list : List α} {depth : Nat} {x : α} (hget : list[depth]? = some x) :
    list.drop depth = x :: list.drop (depth + 1) := by
  obtain ⟨hlt, hx⟩ := List.getElem?_eq_some_iff.mp hget
  rw [← hx, List.getElem_cons_drop]

/-- A block as it is meant: its records, and the bytes behind them. -/
structure Block where
  fpos : Nat
  records : List (Key × Value)
  rest : List UInt8

namespace Block

def str (block : Block) : List UInt8 := packed block.records ++ block.rest

def num (block : Block) : Int32 := Int32.ofNat block.records.length

def image (block : Block) (nextfpos : Nat) : List UInt8 :=
  Bytes.encode 4 block.num.toUInt32.toNat ++ (block.str ++ Bytes.encode 8 nextfpos)

structure Fits (bucketSize : Nat) (block : Block) : Prop where
  room : (packed block.records).length + 20 ≤ bucketSize
  length : block.str.length = BucketChain.blockSize bucketSize
  countable : block.records.length < 2 ^ 31
  keyed : ∀ entry ∈ block.records, entry.1 ≠ []
  positive : 0 < block.fpos
  bounded : block.fpos < 2 ^ 64

theorem image_length {block : Block} {bucketSize : Nat} (hfits : block.Fits bucketSize)
    (nextfpos : Nat) : (block.image nextfpos).length = bucketSize := by
  have hroom := hfits.room
  unfold image
  rw [List.length_append, List.length_append, hfits.length, Bytes.encode_length,
    Bytes.encode_length]
  unfold BucketChain.blockSize
  omega

theorem Fits.sizes {block : Block} {bucketSize : Nat} (hfits : block.Fits bucketSize)
    (hsize : bucketSize < 2 ^ 64) :
    ∀ entry ∈ block.records, entry.1.length < 2 ^ 64 ∧ entry.2.length < 2 ^ 64 := by
  intro entry hentry
  have hle := record_length_le_packed hentry
  have hroom := hfits.room
  rw [record_length] at hle
  omega

end Block

def link : List Block → Nat
  | [] => 0
  | block :: _ => block.fpos

theorem link_lt {bucketSize : Nat} {blocks : List Block}
    (hfits : ∀ block ∈ blocks, block.Fits bucketSize) : link blocks < 2 ^ 64 := by
  cases blocks with
  | nil => exact Nat.two_pow_pos 64
  | cons block behind => exact (hfits block List.mem_cons_self).bounded

theorem link_eq_zero {bucketSize : Nat} {blocks : List Block}
    (hfits : ∀ block ∈ blocks, block.Fits bucketSize) : link blocks = 0 ↔ blocks = [] := by
  cases blocks with
  | nil => exact ⟨fun _ => rfl, fun _ => rfl⟩
  | cons block behind =>
    have hpositive := (hfits block List.mem_cons_self).positive
    exact ⟨fun h => absurd h (Nat.ne_of_gt hpositive), fun h => nomatch h⟩

def Stored (bucketSize : Nat) (file : ByteStore) (block : Block) (nextfpos : Nat) : Prop :=
  file.read block.fpos bucketSize = block.image nextfpos

def OnDisk (bucketSize : Nat) (file : ByteStore) : List Block → Prop
  | [] => True
  | block :: behind =>
    Stored bucketSize file block (link behind) ∧ OnDisk bucketSize file behind

/-- One block of a chain, in memory with what is behind it. -/
structure Shows (bucketSize : Nat) (file : ByteStore) (bucket : BucketChain) (next : Chain)
    (block : Block) (behind : List Block) : Prop where
  fpos : bucket.fpos = block.fpos
  str : bucket.isLoaded = true → bucket.str = some block.str
  num : bucket.isLoaded = true → bucket.num = block.num
  last : bucket.isLoaded = true → next = [] → behind = [] ∧ bucket.nextfpos = 0
  stored : (bucket.isLoaded && bucket.isDirty) = false →
    Stored bucketSize file block (link behind)

/-- The chain in memory, as far as it goes, and the file hold these blocks. -/
def Holds (bucketSize : Nat) (file : ByteStore) : Chain → List Block → Prop
  | [], blocks => OnDisk bucketSize file blocks
  | _ :: _, [] => False
  | bucket :: next, block :: behind =>
    Shows bucketSize file bucket next block behind ∧ Holds bucketSize file next behind

section Holds

variable {bucketSize : Nat} {file other : ByteStore} {chain next : Chain} {bucket : BucketChain}
  {block : Block} {blocks behind : List Block}

@[simp] theorem holds_cons : Holds bucketSize file (bucket :: next) (block :: behind) ↔
    Shows bucketSize file bucket next block behind ∧ Holds bucketSize file next behind := Iff.rfl

theorem Stored.frame {nextfpos : Nat} (hstored : Stored bucketSize file block nextfpos)
    (hagree : ByteStore.Agree block.fpos bucketSize other file) :
    Stored bucketSize other block nextfpos :=
  (ByteStore.read_congr hagree).trans hstored

theorem OnDisk.frame (hdisk : OnDisk bucketSize file blocks)
    (hagree : ∀ block ∈ blocks, ByteStore.Agree block.fpos bucketSize other file) :
    OnDisk bucketSize other blocks := by
  induction blocks with
  | nil => trivial
  | cons block behind ih =>
    exact ⟨hdisk.1.frame (hagree block List.mem_cons_self),
      ih hdisk.2 fun later hlater => hagree later (List.mem_cons_of_mem _ hlater)⟩

theorem Shows.frame (hshows : Shows bucketSize file bucket next block behind)
    (hagree : ByteStore.Agree block.fpos bucketSize other file) :
    Shows bucketSize other bucket next block behind :=
  { hshows with stored := fun hclean => (hshows.stored hclean).frame hagree }

theorem Holds.frame (hholds : Holds bucketSize file chain blocks)
    (hagree : ∀ block ∈ blocks, ByteStore.Agree block.fpos bucketSize other file) :
    Holds bucketSize other chain blocks := by
  induction chain generalizing blocks with
  | nil => exact OnDisk.frame hholds hagree
  | cons bucket next ih =>
    cases blocks with
    | nil => exact hholds
    | cons block behind =>
      exact ⟨hholds.1.frame (hagree block List.mem_cons_self),
        ih hholds.2 fun later hlater => hagree later (List.mem_cons_of_mem _ hlater)⟩

theorem Holds.length_le (hholds : Holds bucketSize file chain blocks) :
    chain.length ≤ blocks.length := by
  induction chain generalizing blocks with
  | nil => exact Nat.zero_le _
  | cons bucket next ih =>
    cases blocks with
    | nil => exact absurd hholds id
    | cons block behind => exact Nat.succ_le_succ (ih hholds.2)

theorem Holds.getElem? (hholds : Holds bucketSize file chain blocks) {i : Nat}
    (hbucket : chain[i]? = some bucket) :
    ∃ block, blocks[i]? = some block ∧
      Shows bucketSize file bucket (chain.drop (i + 1)) block (blocks.drop (i + 1)) := by
  induction chain generalizing blocks i with
  | nil => cases hbucket
  | cons first next ih =>
    cases blocks with
    | nil => exact absurd hholds id
    | cons block behind =>
      cases i with
      | zero =>
        cases hbucket
        exact ⟨block, rfl, hholds.1⟩
      | succ i => exact ih hholds.2 hbucket

theorem Holds.drop {front : Chain} {before : List Block} (hlength : front.length = before.length)
    (hholds : Holds bucketSize file (front ++ chain) (before ++ blocks)) :
    Holds bucketSize file chain blocks := by
  induction front generalizing before with
  | nil =>
    rw [List.eq_nil_of_length_eq_zero hlength.symm] at hholds
    exact hholds
  | cons bucket front ih =>
    cases before with
    | nil => exact absurd hlength (Nat.succ_ne_zero _)
    | cons block before => exact ih (Nat.succ.inj hlength) hholds.2

theorem Holds.append {front newEnd : Chain} {before newBlocks : List Block}
    (hlength : front.length = before.length)
    (hholds : Holds bucketSize file (front ++ chain) (before ++ blocks))
    (hne : newEnd ≠ []) (hlink : link newBlocks = link blocks)
    (hend : Holds bucketSize file newEnd newBlocks) :
    Holds bucketSize file (front ++ newEnd) (before ++ newBlocks) := by
  induction front generalizing before with
  | nil =>
    rw [List.eq_nil_of_length_eq_zero hlength.symm]
    exact hend
  | cons bucket front ih =>
    cases before with
    | nil => exact absurd hlength (Nat.succ_ne_zero _)
    | cons block before =>
      obtain ⟨hshows, hrest⟩ := holds_cons.mp hholds
      have hbehind : link (before ++ newBlocks) = link (before ++ blocks) := by
        cases before with
        | nil => exact hlink
        | cons later before => rfl
      refine holds_cons.mpr ⟨⟨hshows.fpos, hshows.str, hshows.num, ?_, ?_⟩,
        ih (Nat.succ.inj hlength) hrest⟩
      · intro _ hnil
        exact absurd (List.append_eq_nil_iff.mp hnil).2 hne
      · intro hclean
        change Stored bucketSize file block (link (before ++ newBlocks))
        rw [hbehind]
        exact hshows.stored hclean

theorem Holds.set (hholds : Holds bucketSize file chain blocks) {i : Nat} {fresh : BucketChain}
    {newBlock : Block} (hbucket : chain[i]? = some bucket) (hblock : blocks[i]? = some block)
    (hfpos : newBlock.fpos = block.fpos)
    (hshows : Shows bucketSize file fresh (chain.drop (i + 1)) newBlock (blocks.drop (i + 1))) :
    Holds bucketSize file (chain.set i fresh) (blocks.set i newBlock) := by
  obtain ⟨hchain, hfront⟩ := split_at hbucket
  obtain ⟨hblocks, hbefore⟩ := split_at hblock
  have hlength := hfront.trans hbefore.symm
  rw [hchain, hblocks] at hholds
  rw [set_at hbucket, set_at hblock]
  exact hholds.append hlength (List.cons_ne_nil _ _) hfpos
    ⟨hshows, (Holds.drop hlength hholds).2⟩

theorem Stored.parts {nextfpos : Nat} (hfits : block.Fits bucketSize)
    (hstored : Stored bucketSize file block nextfpos) :
    file.read block.fpos 4 = Bytes.encode 4 block.num.toUInt32.toNat ∧
    file.read (block.fpos + 4) (BucketChain.blockSize bucketSize) = block.str ∧
    file.read (block.fpos + 4 + BucketChain.blockSize bucketSize) 8 = Bytes.encode 8 nextfpos := by
  have hroom := hfits.room
  have hsize : bucketSize = 4 + (BucketChain.blockSize bucketSize + 8) := by
    unfold BucketChain.blockSize
    omega
  have hread : file.read block.fpos (4 + (BucketChain.blockSize bucketSize + 8)) =
      block.image nextfpos := by
    rw [← hsize]
    exact hstored
  rw [ByteStore.read_add, ByteStore.read_add] at hread
  obtain ⟨hnum, hbehind⟩ := List.append_inj hread (by simp)
  obtain ⟨hstr, hlink⟩ := List.append_inj hbehind (by rw [ByteStore.read_length, hfits.length])
  exact ⟨hnum, hstr, hlink⟩

private theorem int32_ofNat_toUInt32 (num : Int32) : Int32.ofNat num.toUInt32.toNat = num := by
  have hofNat : Int32.ofNat num.toUInt32.toNat = num.toUInt32.toInt32 := by
    rw [← UInt32.toInt32_ofNat', UInt32.ofNat_toNat]
  rw [hofNat, Int32.toInt32_toUInt32]

theorem readFile_holds (hfits : ∀ other ∈ block :: behind, other.Fits bucketSize)
    (hholds : Holds bucketSize file (bucket :: next) (block :: behind)) :
    ∃ loaded rest, bucket.readFile bucketSize file next = loaded :: rest ∧
      loaded.isLoaded = true ∧ Holds bucketSize file (loaded :: rest) (block :: behind) := by
  obtain ⟨hshows, hrest⟩ := hholds
  unfold BucketChain.readFile
  split_ifs with hloaded
  · exact ⟨bucket, next, rfl, hloaded, hshows, hrest⟩
  have hblock := hfits block List.mem_cons_self
  have hbehind : ∀ other ∈ behind, other.Fits bucketSize :=
    fun other hother => hfits other (List.mem_cons_of_mem _ hother)
  have hstored := hshows.stored (by rw [Bool.not_eq_true] at hloaded; rw [hloaded]; rfl)
  obtain ⟨hnum, hstr, hlink⟩ := hstored.parts hblock
  have hlinkLt := link_lt hbehind
  have hnextfpos : Bytes.decode (Bytes.encode 8 (link behind)) = link behind := by
    rw [Bytes.decode_encode]
    exact Nat.mod_eq_of_lt (by omega)
  have hcount : Int32.ofNat (Bytes.decode (Bytes.encode 4 block.num.toUInt32.toNat)) =
      block.num := by
    have hlt : block.num.toUInt32.toNat < 2 ^ 32 := UInt32.toNat_lt _
    rw [Bytes.decode_encode, Nat.mod_eq_of_lt (by omega), int32_ofNat_toUInt32]
  rw [hshows.fpos, hnum, hstr, hlink, hnextfpos, hcount]
  have hclean : ∀ {rest : Chain}, (rest = [] → behind = []) →
      Holds bucketSize file rest behind →
      Holds bucketSize file ({ bucket with
        str := some block.str
        fpos := block.fpos
        num := block.num
        nextfpos := link behind
        isLoaded := true
        isDirty := false } :: rest) (block :: behind) := by
    intro rest hend hholds
    refine ⟨⟨rfl, fun _ => rfl, fun _ => rfl, ?_, fun _ => hstored⟩, hholds⟩
    intro _ hnil
    exact ⟨hend hnil, (link_eq_zero hbehind).mpr (hend hnil)⟩
  refine ⟨_, _, rfl, rfl, ?_⟩
  cases behind with
  | nil =>
    rw [if_pos (show link [] = 0 from rfl)]
    exact hclean (fun _ => rfl) hrest
  | cons later others =>
    have hne : link (later :: others) ≠ 0 := Nat.ne_of_gt (hbehind later List.mem_cons_self).positive
    rw [if_neg hne]
    cases next with
    | nil =>
      have hunread : (BucketChain.create (link (later :: others))).isLoaded = true → False :=
        fun h => Bool.false_ne_true h
      have hcreate : Shows bucketSize file (BucketChain.create (link (later :: others))) []
          later others :=
        ⟨rfl, fun h => (hunread h).elim, fun h => (hunread h).elim, fun h => (hunread h).elim,
          fun _ => hrest.1⟩
      exact hclean (fun hnil => absurd hnil (List.cons_ne_nil _ _)) ⟨hcreate, hrest.2⟩
    | cons following rest =>
      have hsame : { following with fpos := link (later :: others) } = following := by
        have hpos : following.fpos = link (later :: others) := hrest.1.fpos
        rw [← hpos]
      simp only [hsame]
      exact hclean (fun hnil => absurd hnil (List.cons_ne_nil _ _)) hrest

theorem loadNext_cases (hfits : ∀ other ∈ behind, other.Fits bucketSize)
    (hloaded : bucket.isLoaded = true)
    (hholds : Holds bucketSize file (bucket :: next) (block :: behind)) :
    behind = [] ∧ next = [] ∨
    ∃ later others following rest loaded, behind = later :: others ∧
      BucketChain.loadNext bucketSize file next = (following :: rest, loaded) ∧
      following.isLoaded = true ∧
      Holds bucketSize file (following :: rest) (later :: others) := by
  obtain ⟨hshows, hrest⟩ := hholds
  cases next with
  | nil => exact Or.inl ⟨(hshows.last hloaded rfl).1, rfl⟩
  | cons following rest =>
    cases behind with
    | nil => exact absurd hrest id
    | cons later others =>
      refine Or.inr ⟨later, others, ?_⟩
      unfold BucketChain.loadNext
      by_cases hthere : following.isLoaded = true
      · exact ⟨following, rest, false, rfl, if_pos hthere, hthere, hrest⟩
      · obtain ⟨fresh, more, hread, hfresh, hmore⟩ := readFile_holds hfits hrest
        refine ⟨fresh, more, true, rfl, ?_, hfresh, hmore⟩
        simp only [if_neg hthere, hread]

theorem Holds.behind_loaded {rest : Chain} {following : BucketChain}
    (hholds : Holds bucketSize file (bucket :: next) (block :: behind))
    (hrest : Holds bucketSize file (following :: rest) behind) :
    Holds bucketSize file (bucket :: following :: rest) (block :: behind) :=
  ⟨{ hholds.1 with last := fun _ hnil => nomatch hnil }, hrest⟩

end Holds

end Libsax.Db
