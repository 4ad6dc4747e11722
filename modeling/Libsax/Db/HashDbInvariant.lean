import Mathlib.Data.List.Pairwise
import Mathlib.Data.List.Perm.Subperm
import Libsax.Db.HashDbChain

/-! What holds of a hash database between two calls: where its blocks lie in the
file, which records they hold, and what of it is in memory. -/
namespace Libsax.Db

open Libsax.Lib

/-- The map the callers mean: keys with their values, no key twice. -/
abbrev Map := List (Key × Value)

def lookup (map : Map) (key : Key) : Option Value :=
  (map.find? fun entry => decide (entry.1 = key)).map Prod.snd

def without (map : Map) (key : Key) : Map := map.filter fun entry => !decide (entry.1 = key)

/-- The bucket of a key in a directory of `2 ^ dpow` entries. -/
def slot (hashFun : Key → UInt32) (dpow : Nat) (key : Key) : Nat :=
  (hashFun key).toNat % 2 ^ dpow

/-- Where the first block is put: behind the header and the directory. -/
def base (dpow : Nat) : Nat := HashHeader.size + 8 * 2 ^ dpow

def recordsOf (chain : List Block) : List (Key × Value) := chain.flatMap Block.records

/-- The blocks of all chains lie side by side behind the directory, and their
records are those of `map`, each in the bucket of its key. -/
structure Layout (hashFun : Key → UInt32) (bucketSize dpow nBlock : Nat)
    (chains : Nat → List Block) (map : Map) : Prop where
  size : bucketSize < 2 ^ 64
  degree : dpow < 31
  blocks : nBlock < 2 ^ 64
  within : base dpow + bucketSize * nBlock ≤ 2 ^ 64
  fits : ∀ i < 2 ^ dpow, ∀ block ∈ chains i, block.Fits bucketSize
  placed : ∀ i < 2 ^ dpow, ∀ block ∈ chains i, ∃ k < nBlock, block.fpos = base dpow + bucketSize * k
  apart : (contents (2 ^ dpow) fun i => (chains i).map Block.fpos).Nodup
  filed : Filed (2 ^ dpow) (fun entry => slot hashFun dpow entry.1) fun i => recordsOf (chains i)
  perm : (contents (2 ^ dpow) fun i => recordsOf (chains i)).Perm map
  distinct : (map.map Prod.fst).Nodup

structure Attached (hashFun : Key → UInt32) (db : HashDb) (chains : Nat → List Block) (map : Map) :
    Prop where
  attached : db.attached = true
  exists_ : db.exists_ = true
  magic : db.sfh.magic = HashHeader.consistent
  directory : db.directorySize = 2 ^ db.sfh.dpow
  mask : db.dmask = 2 ^ db.sfh.dpow - 1
  layout : Layout hashFun db.sfh.bucketSize db.sfh.dpow db.sfh.nBlock chains map
  count : db.sfh.numItems = map.length % 2 ^ 64
  addr : ∀ i < 2 ^ db.sfh.dpow, db.bucketAddr i = link (chains i)
  holds : ∀ i < 2 ^ db.sfh.dpow, Holds db.sfh.bucketSize db.file (db.entry i) (chains i)

structure Closed (hashFun : Key → UInt32) (db : HashDb) (chains : Nat → List Block) (map : Map) :
    Prop where
  isOpen : db.isOpen = false
  attached : db.attached = false
  exists_ : db.exists_ = true
  idle : db.activeNum = 0
  header : ∃ cacheSize, HashHeader.fromFile db.file = { db.sfh with cacheSize := cacheSize }
  magic : db.sfh.magic = HashHeader.consistent
  layout : Layout hashFun db.sfh.bucketSize db.sfh.dpow db.sfh.nBlock chains map
  count : db.sfh.numItems = map.length % 2 ^ 64
  addr : ∀ i < 2 ^ db.sfh.dpow, HashDb.readDirectory db.file i = link (chains i)
  disk : ∀ i < 2 ^ db.sfh.dpow, OnDisk db.sfh.bucketSize db.file (chains i)

theorem slot_lt (hashFun : Key → UInt32) (dpow : Nat) (key : Key) :
    slot hashFun dpow key < 2 ^ dpow := Nat.mod_lt _ (Nat.two_pow_pos dpow)

theorem Attached.index_eq {hashFun : Key → UInt32} {db : HashDb} {chains : Nat → List Block}
    {map : Map} (hdb : Attached hashFun db chains map) (key : Key) :
    db.index hashFun key = slot hashFun db.sfh.dpow key := by
  unfold HashDb.index slot
  rw [hdb.mask, Nat.and_two_pow_sub_one_eq_mod]

theorem places_apart {first size k l : Nat} (hne : first + size * k ≠ first + size * l) :
    first + size * k + size ≤ first + size * l ∨ first + size * l + size ≤ first + size * k := by
  rcases Nat.lt_trichotomy k l with hlt | heq | hgt
  · have hmul := Nat.mul_le_mul_left size (Nat.succ_le_of_lt hlt)
    rw [Nat.mul_succ] at hmul
    omega
  · exact absurd (by rw [heq]) hne
  · have hmul := Nat.mul_le_mul_left size (Nat.succ_le_of_lt hgt)
    rw [Nat.mul_succ] at hmul
    omega

namespace Layout

variable {hashFun : Key → UInt32} {bucketSize dpow nBlock : Nat} {chains : Nat → List Block}
  {map : Map}

theorem place_inj (hlayout : Layout hashFun bucketSize dpow nBlock chains map) {i j m n : Nat}
    {left right : Block} (hi : i < 2 ^ dpow) (hj : j < 2 ^ dpow)
    (hleft : (chains i)[m]? = some left) (hright : (chains j)[n]? = some right)
    (hsame : left.fpos = right.fpos) : i = j ∧ m = n := by
  obtain ⟨hnodup, hpairs⟩ := List.nodup_flatMap.mp hlayout.apart
  have hleftMap : ((chains i).map Block.fpos)[m]? = some left.fpos := by
    rw [List.getElem?_map, hleft, Option.map_some]
  have hrightMap : ((chains j).map Block.fpos)[n]? = some left.fpos := by
    rw [List.getElem?_map, hright, Option.map_some, hsame]
  by_cases heq : i = j
  · subst heq
    refine ⟨rfl, ?_⟩
    have hlt : m < ((chains i).map Block.fpos).length := (List.getElem?_eq_some_iff.mp hleftMap).1
    exact (List.getElem?_inj hlt (hnodup i (List.mem_range.mpr hi))).mp
      (hleftMap.trans hrightMap.symm)
  · have hsymm : Std.Symm (Function.onFun List.Disjoint fun i => (chains i).map Block.fpos) :=
      ⟨fun _ _ hdisjoint _ hleft hright => hdisjoint hright hleft⟩
    have hdisjoint := hpairs.forall (List.mem_range.mpr hi) (List.mem_range.mpr hj) heq
    exact absurd (List.mem_of_getElem? hrightMap) (hdisjoint (List.mem_of_getElem? hleftMap))

private theorem apart_of_ne (hlayout : Layout hashFun bucketSize dpow nBlock chains map) {i j : Nat}
    {left right : Block} (hi : i < 2 ^ dpow) (hj : j < 2 ^ dpow) (hleft : left ∈ chains i)
    (hright : right ∈ chains j) (hne : left.fpos ≠ right.fpos) :
    left.fpos + bucketSize ≤ right.fpos ∨ right.fpos + bucketSize ≤ left.fpos := by
  obtain ⟨k, -, hk⟩ := hlayout.placed i hi left hleft
  obtain ⟨l, -, hl⟩ := hlayout.placed j hj right hright
  rw [hk, hl] at hne ⊢
  exact places_apart hne

theorem agree_write (hlayout : Layout hashFun bucketSize dpow nBlock chains map) {i j m n : Nat}
    {block other : Block} (hi : i < 2 ^ dpow) (hj : j < 2 ^ dpow)
    (hblock : (chains i)[m]? = some block) (hother : (chains j)[n]? = some other)
    (hne : (i, m) ≠ (j, n)) (file : ByteStore) (nextfpos : Nat) :
    ByteStore.Agree other.fpos bucketSize (file.write block.fpos (block.image nextfpos)) file := by
  have hmem := List.mem_of_getElem? hblock
  have hdifferent : other.fpos ≠ block.fpos := by
    intro hsame
    obtain ⟨rfl, rfl⟩ := hlayout.place_inj hi hj hblock hother hsame.symm
    exact hne rfl
  have hapart := hlayout.apart_of_ne hj hi (List.mem_of_getElem? hother) hmem hdifferent
  refine ByteStore.agree_write ?_
  rwa [Block.image_length (hlayout.fits i hi block hmem)]

theorem base_le (hlayout : Layout hashFun bucketSize dpow nBlock chains map) {i : Nat}
    (hi : i < 2 ^ dpow) {block : Block} (hblock : block ∈ chains i) : base dpow ≤ block.fpos := by
  obtain ⟨k, -, hk⟩ := hlayout.placed i hi block hblock
  omega

theorem blocks_le (hlayout : Layout hashFun bucketSize dpow nBlock chains map) :
    (contents (2 ^ dpow) chains).length ≤ nBlock := by
  have hsubset : (contents (2 ^ dpow) fun i => (chains i).map Block.fpos) ⊆
      (List.range nBlock).map fun k => base dpow + bucketSize * k := by
    intro pos hpos
    obtain ⟨i, hi, hmem⟩ := mem_contents.mp hpos
    obtain ⟨block, hblock, rfl⟩ := List.mem_map.mp hmem
    obtain ⟨k, hk, hplace⟩ := hlayout.placed i hi block hblock
    exact List.mem_map.mpr ⟨k, List.mem_range.mpr hk, hplace.symm⟩
  have hle := (List.subperm_of_subset hlayout.apart hsubset).length_le
  have hmap : (contents (2 ^ dpow) fun i => (chains i).map Block.fpos) =
      (contents (2 ^ dpow) chains).map Block.fpos := (List.map_flatMap).symm
  rw [hmap, List.length_map, List.length_map, List.length_range] at hle
  exact hle

theorem chain_length_le (hlayout : Layout hashFun bucketSize dpow nBlock chains map) {i : Nat}
    (hi : i < 2 ^ dpow) : (chains i).length ≤ nBlock := by
  have hsub : (chains i).Sublist (contents (2 ^ dpow) chains) := by
    unfold contents
    rw [List.flatMap_def]
    exact List.sublist_flatten_of_mem (List.mem_map_of_mem (List.mem_range.mpr hi))
  exact Nat.le_trans hsub.length_le hlayout.blocks_le

theorem map_length_lt (hlayout : Layout hashFun bucketSize dpow nBlock chains map) :
    map.length < 2 ^ 64 := by
  have hblocks : ∀ blocks : List Block, (∀ block ∈ blocks, block.Fits bucketSize) →
      17 * (recordsOf blocks).length ≤ bucketSize * blocks.length := by
    intro blocks
    induction blocks with
    | nil => exact fun _ => Nat.le_refl _
    | cons block behind ih =>
      intro hfits
      have hrest := ih fun other hother => hfits other (List.mem_cons_of_mem _ hother)
      have hblock := hfits block List.mem_cons_self
      have hbytes := packed_length_ge hblock.keyed
      have hroom := hblock.room
      rw [List.length_cons, Nat.mul_succ]
      unfold recordsOf at hrest ⊢
      rw [List.flatMap_cons, List.length_append]
      omega
  have hall : ∀ block ∈ contents (2 ^ dpow) chains, block.Fits bucketSize := by
    intro block hblock
    obtain ⟨i, hi, hmem⟩ := mem_contents.mp hblock
    exact hlayout.fits i hi block hmem
  have hrecords : (contents (2 ^ dpow) fun i => recordsOf (chains i)) =
      recordsOf (contents (2 ^ dpow) chains) := List.flatMap_assoc.symm
  have hlength := hlayout.perm.length_eq
  have hbound := hblocks _ hall
  have hmul := Nat.mul_le_mul_left bucketSize hlayout.blocks_le
  have hwithin := hlayout.within
  have hbase : 0 < base dpow := Nat.lt_of_lt_of_le (by decide) (Nat.le_add_right _ _)
  rw [hrecords] at hlength
  omega

end Layout

end Libsax.Db
