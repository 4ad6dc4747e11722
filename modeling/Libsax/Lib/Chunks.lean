import Mathlib.Data.List.Nodup

/-! Flat memory over a chain of blocks of one size. Index `i` of the chain is
offset `i % size` of its block number `i / size`; a chunk is a run of bytes
inside one block. -/
namespace Libsax.Lib.Chunks

structure Chunk where
  block : Nat
  offset : Nat
  length : Nat
deriving DecidableEq, Repr

variable {β : Type}

/-- The block and the offset of a flat index. -/
def address (blocks : List Nat) (size index : Nat) : Option (Nat × Nat) :=
  blocks[index / size]?.map fun block => (block, index % size)

/-- What the chain holds at a flat index. -/
def cell (memory : Nat → Nat → β) (blocks : List Nat) (size index : Nat) : Option β :=
  (address blocks size index).map fun entry => memory entry.1 entry.2

def load (memory : Nat → Nat → β) (chunk : Chunk) : List β :=
  (List.range chunk.length).map fun index => memory chunk.block (chunk.offset + index)

def store (memory : Nat → Nat → β) (block offset : Nat) (data : List β) : Nat → Nat → β :=
  fun other index =>
    if other = block ∧ offset ≤ index then (data[index - offset]?).getD (memory other index)
    else memory other index

/-- Copy `data` to several chunks, each taking what it has room for. -/
def storeAll (memory : Nat → Nat → β) : List Chunk → List β → Nat → Nat → β
  | [], _ => memory
  | chunk :: rest, data =>
    storeAll (store memory chunk.block chunk.offset (data.take chunk.length)) rest
      (data.drop chunk.length)

/-- The chunks are the flat indices from `start` up to `stop`, in order. -/
def Covers (blocks : List Nat) (size : Nat) : Nat → List Chunk → Nat → Prop
  | start, [], stop => start = stop
  | start, chunk :: rest, stop =>
    (∀ index, index < chunk.length →
      address blocks size (start + index) = some (chunk.block, chunk.offset + index)) ∧
    Covers blocks size (start + chunk.length) rest stop

variable {blocks : List Nat} {size : Nat} {memory : Nat → Nat → β}

theorem address_isSome {index : Nat} (hsize : 0 < size) (hindex : index < blocks.length * size) :
    ∃ block, blocks[index / size]? = some block ∧
      address blocks size index = some (block, index % size) := by
  have hlt : index / size < blocks.length := (Nat.div_lt_iff_lt_mul hsize).mpr hindex
  exact ⟨blocks[index / size], List.getElem?_eq_getElem hlt, by
    simp [address, List.getElem?_eq_getElem hlt]⟩

private theorem lt_of_address {index : Nat} {entry : Nat × Nat} (hsize : 0 < size)
    (haddress : address blocks size index = some entry) : index < blocks.length * size := by
  unfold address at haddress
  obtain ⟨block, hblock, -⟩ := Option.map_eq_some_iff.mp haddress
  exact (Nat.div_lt_iff_lt_mul hsize).mp (List.getElem?_eq_some_iff.mp hblock).1

theorem lt_of_cell {index : Nat} {value : β} (hsize : 0 < size)
    (hcell : cell memory blocks size index = some value) : index < blocks.length * size := by
  obtain ⟨entry, haddress, -⟩ := Option.map_eq_some_iff.mp hcell
  exact lt_of_address hsize haddress

theorem address_block (hsize : 0 < size) {number block offset : Nat}
    (hblock : blocks[number]? = some block) (hoffset : offset < size) :
    address blocks size (number * size + offset) = some (block, offset) := by
  have hdiv : (number * size + offset) / size = number := by
    rw [Nat.mul_comm, Nat.mul_add_div hsize, Nat.div_eq_of_lt hoffset, Nat.add_zero]
  have hmod : (number * size + offset) % size = offset := by
    rw [Nat.mul_comm, Nat.mul_add_mod, Nat.mod_eq_of_lt hoffset]
  simp [address, hdiv, hmod, hblock]

private theorem address_injective (hnodup : blocks.Nodup) {left right : Nat}
    {entry : Nat × Nat} (hleft : address blocks size left = some entry)
    (hright : address blocks size right = some entry) : left = right := by
  unfold address at hleft hright
  obtain ⟨block, hblock, rfl⟩ := Option.map_eq_some_iff.mp hleft
  obtain ⟨other, hother, hentry⟩ := Option.map_eq_some_iff.mp hright
  rw [Prod.mk.injEq] at hentry
  obtain ⟨rfl, hoffset⟩ := hentry
  obtain ⟨hlt, hget⟩ := List.getElem?_eq_some_iff.mp hblock
  obtain ⟨hlt', hget'⟩ := List.getElem?_eq_some_iff.mp hother
  have hnumber : left / size = right / size :=
    (List.Nodup.getElem_inj_iff hnodup).mp (hget.trans hget'.symm)
  calc left = size * (left / size) + left % size := (Nat.div_add_mod left size).symm
    _ = size * (right / size) + right % size := by rw [hnumber, hoffset]
    _ = right := Nat.div_add_mod right size

theorem cell_append {more : List Nat} {index : Nat} {value : β}
    (hcell : cell memory blocks size index = some value) :
    cell memory (blocks ++ more) size index = some value := by
  unfold cell address at hcell ⊢
  obtain ⟨entry, hentry, hvalue⟩ := Option.map_eq_some_iff.mp hcell
  obtain ⟨block, hblock, rfl⟩ := Option.map_eq_some_iff.mp hentry
  rw [List.getElem?_append_left (List.getElem?_eq_some_iff.mp hblock).1, hblock]
  simpa using hvalue

theorem cell_drop (hsize : 0 < size) (number index : Nat) :
    cell memory (blocks.drop number) size index =
      cell memory blocks size (number * size + index) := by
  have hdiv : (number * size + index) / size = number + index / size := by
    rw [Nat.mul_comm, Nat.mul_add_div hsize]
  have hmod : (number * size + index) % size = index % size := by
    rw [Nat.mul_comm, Nat.mul_add_mod]
  unfold cell address
  rw [List.getElem?_drop, hdiv, hmod]

theorem Covers.le {start stop : Nat} {chunks : List Chunk}
    (hcovers : Covers blocks size start chunks stop) : start ≤ stop := by
  induction chunks generalizing start with
  | nil => exact Nat.le_of_eq hcovers
  | cons chunk rest ih =>
    have := ih hcovers.2
    omega

theorem load_covers {start stop : Nat} {chunks : List Chunk}
    (hcovers : Covers blocks size start chunks stop) :
    (chunks.flatMap (load memory)).map some =
      (List.range (stop - start)).map fun index => cell memory blocks size (start + index) := by
  induction chunks generalizing start with
  | nil =>
    have hempty : stop - start = 0 := by
      have : start = stop := hcovers
      omega
    rw [hempty]
    rfl
  | cons chunk rest ih =>
    have hle := hcovers.2.le
    have hsplit : stop - start = chunk.length + (stop - (start + chunk.length)) := by omega
    rw [List.flatMap_cons, List.map_append, ih hcovers.2, hsplit, List.range_add,
      List.map_append, List.map_map]
    congr 1
    · unfold load
      rw [List.map_map]
      refine List.map_congr_left fun index hindex => ?_
      simp [cell, hcovers.1 index (List.mem_range.mp hindex)]
    · refine List.map_congr_left fun index _ => ?_
      rw [Function.comp_apply, Nat.add_assoc]

private theorem store_cell (hsize : 0 < size) (hnodup : blocks.Nodup) {start : Nat} {chunk : Chunk}
    (hchunk : ∀ index, index < chunk.length →
      address blocks size (start + index) = some (chunk.block, chunk.offset + index))
    {data : List β} (hlength : data.length = chunk.length) (index : Nat)
    (hindex : index < blocks.length * size) :
    cell (store memory chunk.block chunk.offset data) blocks size index =
      if start ≤ index ∧ index < start + chunk.length then data[index - start]?
      else cell memory blocks size index := by
  obtain ⟨block, hblock, haddress⟩ := address_isSome hsize hindex
  simp only [cell, haddress, Option.map_some, store]
  split_ifs with hhit hinside hinside
  · have hmatch := hchunk (index - start) (by omega)
    rw [Nat.add_sub_cancel' hinside.1, haddress] at hmatch
    simp only [Option.some.injEq, Prod.mk.injEq] at hmatch
    have hoffset : index % size - chunk.offset = index - start := by omega
    have hget : index - start < data.length := by omega
    rw [hoffset, List.getElem?_eq_getElem hget]
    rfl
  · by_cases hroom : index % size - chunk.offset < chunk.length
    · have hsame := hchunk _ hroom
      rw [Nat.add_sub_cancel' hhit.2, ← hhit.1] at hsame
      have := address_injective hnodup haddress hsame
      omega
    · rw [List.getElem?_eq_none (by omega), Option.getD_none]
  · have hmatch := hchunk (index - start) (by omega)
    rw [Nat.add_sub_cancel' hinside.1, haddress] at hmatch
    simp only [Option.some.injEq, Prod.mk.injEq] at hmatch
    exact absurd ⟨hmatch.1, by omega⟩ hhit
  · rfl

theorem storeAll_cell (hsize : 0 < size) (hnodup : blocks.Nodup) {start stop : Nat}
    {chunks : List Chunk} (hcovers : Covers blocks size start chunks stop) {data : List β}
    (hlength : data.length = stop - start) (index : Nat) (hindex : index < blocks.length * size) :
    cell (storeAll memory chunks data) blocks size index =
      if start ≤ index ∧ index < stop then data[index - start]?
      else cell memory blocks size index := by
  induction chunks generalizing start memory data with
  | nil =>
    have hempty : start = stop := hcovers
    rw [if_neg (by omega)]
    rfl
  | cons chunk rest ih =>
    have hle := hcovers.2.le
    have htake : (data.take chunk.length).length = chunk.length := by
      rw [List.length_take]
      omega
    rw [storeAll, ih hcovers.2 (by rw [List.length_drop]; omega),
      store_cell hsize hnodup hcovers.1 htake index hindex]
    by_cases hrest : start + chunk.length ≤ index ∧ index < stop
    · rw [if_pos hrest, if_pos ⟨by omega, hrest.2⟩, List.getElem?_drop]
      congr 1
      omega
    · rw [if_neg hrest]
      by_cases hfirst : start ≤ index ∧ index < start + chunk.length
      · rw [if_pos hfirst, if_pos ⟨hfirst.1, by omega⟩, List.getElem?_take_of_lt (by omega)]
      · rw [if_neg hfirst, if_neg (by omega)]

end Libsax.Lib.Chunks
