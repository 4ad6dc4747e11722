import Libsax.Net2.Buffer
import Mathlib.Algebra.Ring.Nat

/-! What a `buffer` holds: bytes that were written and not yet read. The calls of a
stream's two ends, in terms of these bytes. -/
namespace Libsax.Net2.Buffer

open Libsax.Lib

variable {heap : Heap} {buf other : Buffer} {pending data bytes rest : List UInt8}

/-- In writing mode, with `pending` in front of the cursor. -/
structure Holds (buf : Buffer) (pending : List UInt8) : Prop where
  stored : ∃ cells, buf.storage = some cells ∧ pending = (List.range buf.position.toNat).map cells
  writing : buf.reading = false
  unlimited : buf.limitedWrite = false
  limit : buf.limit = buf.capacity
  inside : buf.position.toNat ≤ buf.capacity.toNat
  small : buf.capacity.toNat ≤ 2 ^ 63

/-- In reading mode, with `rest` behind the cursor. -/
structure Reads (buf : Buffer) (rest : List UInt8) : Prop where
  stored : ∃ cells, buf.storage = some cells ∧
    rest = (List.range rest.length).map fun index => cells (buf.position.toNat + index)
  reading : buf.reading = true
  ends : buf.position.toNat + rest.length = buf.limit.toNat
  inside : buf.limit.toNat ≤ buf.capacity.toNat
  small : buf.capacity.toNat ≤ 2 ^ 63

theorem Holds.length (hholds : buf.Holds pending) : buf.position.toNat = pending.length := by
  obtain ⟨cells, -, hpending⟩ := hholds.stored
  rw [hpending, List.length_map, List.length_range]

private theorem sizeLevelFrom_spec {size : UInt64} (hsize : size.toNat ≤ 2 ^ 63) (left : Nat) :
    ∀ level temp, level + left = 64 → level ≤ 63 → temp.toNat = 2 ^ level →
      sizeLevelFrom size left level temp ≤ 63 ∧
        size.toNat ≤ 2 ^ sizeLevelFrom size left level temp := by
  induction left with
  | zero =>
    intro level temp hleft hlevel
    omega
  | succ left ih =>
    intro level temp hleft hlevel htemp
    rw [sizeLevelFrom]
    split_ifs with hge
    · exact ⟨hlevel, htemp ▸ UInt64.le_iff_toNat_le.mp hge⟩
    · have hlt : 2 ^ level < 2 ^ 63 := by
        have hless := Nat.not_le.mp (mt UInt64.le_iff_toNat_le.mpr hge)
        omega
      have hlevel : level < 63 := (Nat.pow_lt_pow_iff_right (by decide)).mp hlt
      apply ih (level + 1) (temp <<< 1) (by omega) (by omega)
      rw [UInt64.toNat_shiftLeft, htemp, UInt64.toNat_one, Nat.shiftLeft_eq, Nat.pow_succ]
      omega

private theorem allocate_spec (heap : Heap) {size : UInt64} (hsize : size.toNat ≤ 2 ^ 63)
    (blocks : Nat) :
    ∃ enough, allocate heap blocks size = (enough, heap blocks) ∧
      size.toNat ≤ enough.toNat ∧ enough.toNat ≤ 2 ^ 63 := by
  obtain ⟨hlevel, hholds⟩ : calcSizeLevel size ≤ 63 ∧ size.toNat ≤ 2 ^ calcSizeLevel size :=
    sizeLevelFrom_spec hsize 64 0 1 rfl (by decide) rfl
  have hsmall : ¬size > maxAllocateSize := by
    rw [gt_iff_lt, UInt64.lt_iff_toNat_lt]
    exact Nat.not_lt.mpr hsize
  have hpow : 2 ^ calcSizeLevel size ≤ 2 ^ 63 := Nat.pow_le_pow_right (by decide) hlevel
  have henough : (1 <<< UInt64.ofNat (calcSizeLevel size)).toNat = 2 ^ calcSizeLevel size := by
    have hshift : (UInt64.ofNat (calcSizeLevel size)).toNat = calcSizeLevel size := by
      rw [UInt64.toNat_ofNat', Nat.mod_eq_of_lt]
      exact Nat.lt_of_le_of_lt hlevel (by decide)
    rw [UInt64.toNat_shiftLeft, hshift, UInt64.toNat_one, Nat.shiftLeft_eq, Nat.one_mul,
      Nat.mod_eq_of_lt (Nat.lt_succ_of_le hlevel), Nat.mod_eq_of_lt]
    exact Nat.lt_of_le_of_lt hpow (by decide)
  refine ⟨1 <<< UInt64.ofNat (calcSizeLevel size), if_neg hsmall, ?_, ?_⟩
  · rw [henough]
    exact hholds
  · rw [henough]
    exact hpow

theorem Holds.reserve (hholds : buf.Holds pending) (hheap : ∀ block, (heap block).isSome)
    {size : UInt64} (hsize : size.toNat ≤ 2 ^ 63) (hgrows : pending.length ≤ size.toNat) :
    ∃ after, Buffer.reserve heap buf size = some (after, true) ∧ after.Holds pending ∧
      size.toNat ≤ after.capacity.toNat := by
  unfold Buffer.reserve
  by_cases hroom : buf.capacity ≥ size
  · rw [if_pos hroom]
    exact ⟨buf, rfl, hholds, UInt64.le_iff_toNat_le.mp hroom⟩
  · obtain ⟨enough, hallocate, hle, hsmall⟩ := allocate_spec heap hsize buf.blocks
    obtain ⟨fresh, hfresh⟩ := Option.isSome_iff_exists.mp (hheap buf.blocks)
    obtain ⟨cells, hstorage, hpending⟩ := hholds.stored
    have hlength := hholds.length
    have hcopies : buf.position ≤ buf.capacity ∧ buf.position ≤ enough := by
      constructor
      · exact UInt64.le_iff_toNat_le.mpr hholds.inside
      · apply UInt64.le_iff_toNat_le.mpr
        omega
    rw [if_neg hroom, hallocate, hfresh]
    dsimp only
    rw [if_neg fun h => h.2 hcopies]
    refine ⟨_, rfl, ⟨⟨_, rfl, ?_⟩, hholds.writing, hholds.unlimited, ?_, ?_, hsmall⟩, hle⟩
    · rw [hpending]
      apply List.map_congr_left
      intro index hindex
      rw [hstorage]
      exact (if_pos (List.mem_range.mp hindex)).symm
    · simp [hholds.unlimited]
    · exact UInt64.le_iff_toNat_le.mp hcopies.2

theorem create_holds (hheap : ∀ block, (heap block).isSome) (blocks : Nat) :
    ∃ buf, create heap blocks 512 = some buf ∧ buf.Holds [] := by
  obtain ⟨enough, hallocate, hle, hsmall⟩ :=
    allocate_spec heap (show (512 : UInt64).toNat ≤ 2 ^ 63 by decide) blocks
  obtain ⟨fresh, hfresh⟩ := Option.isSome_iff_exists.mp (hheap blocks)
  have hroom : ¬(0 : UInt64) ≥ 512 := by decide
  unfold create Buffer.reserve
  dsimp only
  rw [if_neg hroom, hallocate, hfresh]
  exact ⟨_, rfl, ⟨_, rfl, rfl⟩, rfl, rfl, rfl, Nat.zero_le _, hsmall⟩

theorem Holds.write (hholds : buf.Holds pending) (data : List UInt8)
    (hroom : pending.length + data.length ≤ buf.capacity.toNat) :
    ∃ after, buf.write data = some after ∧ after.Holds (pending ++ data) := by
  obtain ⟨cells, hstorage, hpending⟩ := hholds.stored
  have hlength := hholds.length
  have hsmall := hholds.small
  have hposition : (buf.position + UInt64.ofNat data.length).toNat =
      pending.length + data.length := by
    rw [UInt64.toNat_add, UInt64.toNat_ofNat', hlength]
    omega
  unfold Buffer.write
  rw [hlength, if_pos hroom]
  refine ⟨_, rfl, ⟨_, by rw [hstorage]; rfl, ?_⟩, hholds.writing, hholds.unlimited, hholds.limit,
    ?_, hsmall⟩
  · dsimp only
    rw [hposition, List.range_add, List.map_append, List.map_map]
    congr 1
    · rw [← hlength]
      nth_rewrite 1 [hpending]
      apply List.map_congr_left
      intro index hindex
      have hbefore := List.mem_range.mp hindex
      rw [if_neg (by omega)]
    · apply List.ext_getElem (by simp)
      intro index hindex hrange
      simp [hindex]
  · dsimp only
    omega

theorem Holds.put (hholds : buf.Holds pending) (hheap : ∀ block, (heap block).isSome)
    (data : List UInt8) (hsmall : pending.length + data.length ≤ 2 ^ 63) :
    ∃ after, buf.put heap data = some (after, true) ∧ after.Holds (pending ++ data) := by
  obtain ⟨cells, hstorage, -⟩ := hholds.stored
  have hlength := hholds.length
  have hinside := hholds.inside
  have hdata : (UInt64.ofNat data.length).toNat = data.length := by
    rw [UInt64.toNat_ofNat']
    omega
  have hremaining : buf.remaining.toNat = buf.capacity.toNat - pending.length := by
    unfold remaining
    rw [hholds.limit, UInt64.toNat_sub_of_le _ _ (UInt64.le_iff_toNat_le.mpr hinside), hlength]
  unfold Buffer.put
  dsimp only
  rw [if_neg (by simp [hstorage, hholds.writing])]
  by_cases hroom : buf.remaining < UInt64.ofNat data.length
  · have hsum : (buf.position + UInt64.ofNat data.length).toNat =
        pending.length + data.length := by
      rw [UInt64.toNat_add, hdata, hlength]
      omega
    obtain ⟨grown, hgrown, hkept, henough⟩ := hholds.reserve hheap (hsum ▸ hsmall) (by omega)
    obtain ⟨after, hwrite, hafter⟩ := hkept.write data (by omega)
    rw [if_pos hroom, if_neg (by simp [hholds.unlimited]), hgrown]
    dsimp only
    rw [hwrite]
    exact ⟨after, rfl, hafter⟩
  · have henough : data.length ≤ buf.capacity.toNat - pending.length := by
      rw [UInt64.lt_iff_toNat_lt, hdata, hremaining] at hroom
      omega
    obtain ⟨after, hwrite, hafter⟩ := hholds.write data (by omega)
    rw [if_neg hroom, hwrite]
    exact ⟨after, rfl, hafter⟩

theorem Holds.flip (hholds : buf.Holds pending) :
    ∃ after, buf.flip = (after, true) ∧ after.Reads pending := by
  obtain ⟨cells, hstorage, hpending⟩ := hholds.stored
  have hlength := hholds.length
  unfold Buffer.flip
  rw [if_neg (by simp [hholds.writing])]
  refine ⟨_, rfl, ⟨cells, hstorage, ?_⟩, rfl, ?_, hholds.inside, hholds.small⟩
  · simpa only [UInt64.toNat_zero, Nat.zero_add, ← hlength] using hpending
  · simp [hlength]

theorem Reads.flip (hreads : buf.Reads rest) : buf.flip = (buf, false) := by
  unfold Buffer.flip
  rw [if_pos hreads.reading]

theorem Reads.remaining (hreads : buf.Reads rest) : buf.remaining.toNat = rest.length := by
  have hends := hreads.ends
  have hle : buf.position ≤ buf.limit := UInt64.le_iff_toNat_le.mpr (by omega)
  unfold Buffer.remaining
  rw [UInt64.toNat_sub_of_le _ _ hle]
  omega

theorem Reads.ofNat_length (hreads : buf.Reads (data ++ rest)) :
    (UInt64.ofNat data.length).toNat = data.length := by
  have hends := hreads.ends
  have hinside := hreads.inside
  have hsmall := hreads.small
  rw [List.length_append] at hends
  rw [UInt64.toNat_ofNat']
  omega

theorem Reads.ahead (hreads : buf.Reads (data ++ rest)) :
    buf.ahead (UInt64.ofNat data.length) = some data := by
  obtain ⟨cells, hstorage, hbytes⟩ := hreads.stored
  have hends := hreads.ends
  have hinside := hreads.inside
  rw [List.length_append] at hends
  rw [List.length_append, List.range_add, List.map_append] at hbytes
  unfold Buffer.ahead
  rw [hstorage, hreads.ofNat_length]
  dsimp only
  rw [if_pos (by omega), ← (List.append_inj hbytes (by simp)).1]

theorem Reads.advance (hreads : buf.Reads (data ++ rest)) (mark : UInt64) :
    Reads { buf with mark := mark, position := buf.position + UInt64.ofNat data.length }
      rest := by
  obtain ⟨cells, hstorage, hbytes⟩ := hreads.stored
  have hends := hreads.ends
  have hinside := hreads.inside
  have hsmall := hreads.small
  rw [List.length_append] at hends
  have hposition : (buf.position + UInt64.ofNat data.length).toNat =
      buf.position.toNat + data.length := by
    rw [UInt64.toNat_add, hreads.ofNat_length]
    omega
  refine ⟨⟨cells, hstorage, ?_⟩, hreads.reading, ?_, hinside, hsmall⟩
  · rw [List.length_append, List.range_add, List.map_append, List.map_map] at hbytes
    refine (List.append_inj hbytes (by simp)).2.trans (List.map_congr_left fun index _ => ?_)
    dsimp only [Function.comp]
    rw [hposition, Nat.add_assoc]
  · dsimp only
    omega

theorem Reads.get (hreads : buf.Reads (data ++ rest)) :
    buf.get (UInt64.ofNat data.length) = some
      ({ buf with position := buf.position + UInt64.ofNat data.length }, some data) := by
  obtain ⟨cells, hstorage, -⟩ := hreads.stored
  have hremaining := hreads.remaining
  have henough : ¬buf.remaining < UInt64.ofNat data.length := by
    rw [UInt64.lt_iff_toNat_lt, hreads.ofNat_length, hremaining, List.length_append]
    omega
  unfold Buffer.get
  rw [if_neg (by simp [hstorage, hreads.reading, henough]), hreads.ahead]
  rfl

theorem Reads.getInt {size : Nat} (hreads : buf.Reads (data ++ rest)) (hsize : data.length = size) :
    buf.getInt size = some ({ buf with position := buf.position + UInt64.ofNat size },
      some (Bytes.decode data.reverse)) := by
  unfold Buffer.getInt
  rw [← hsize, hreads.get]
  rfl

theorem Reads.getInt_reads (hreads : buf.Reads (data ++ rest)) (size : Nat)
    (hsize : data.length = size) :
    ∃ after, buf.getInt size = some (after, some (Bytes.decode data.reverse)) ∧
      after.Reads rest := by
  refine ⟨_, hreads.getInt hsize, ?_⟩
  rw [← hsize]
  exact hreads.advance buf.mark

theorem Reads.compact (hreads : buf.Reads rest) :
    ∃ after, buf.compact = some (after, true) ∧ after.Holds rest := by
  obtain ⟨cells, hstorage, hrest⟩ := hreads.stored
  have hends := hreads.ends
  have hinside := hreads.inside
  have hremaining := hreads.remaining
  unfold Buffer.compact
  rw [if_neg (by simp [hreads.reading])]
  dsimp only
  rw [if_neg (by omega)]
  refine ⟨_, rfl, ⟨_, by rw [hstorage]; rfl, ?_⟩, rfl, rfl, rfl, ?_, hreads.small⟩
  · dsimp only
    rw [hremaining]
    nth_rewrite 1 [hrest]
    apply List.map_congr_left
    intro index hindex
    exact (if_pos (List.mem_range.mp hindex)).symm
  · dsimp only
    omega

theorem Holds.putBuffer (hholds : buf.Holds pending) (hother : other.Reads (data ++ rest))
    (hheap : ∀ block, (heap block).isSome) (hsmall : pending.length + data.length ≤ 2 ^ 63) :
    ∃ after, buf.putBuffer heap other (UInt64.ofNat data.length) = some (after,
        { other with position := other.position + UInt64.ofNat data.length }, true) ∧
      after.Holds (pending ++ data) := by
  obtain ⟨after, hput, hafter⟩ := hholds.put hheap data hsmall
  have henough : ¬other.remaining < UInt64.ofNat data.length := by
    rw [UInt64.lt_iff_toNat_lt, hother.ofNat_length, hother.remaining, List.length_append]
    omega
  unfold Buffer.putBuffer
  rw [if_neg henough, hother.ahead]
  dsimp only
  rw [hput]
  exact ⟨after, rfl, hafter⟩

theorem Reads.getBuffer (hreads : buf.Reads (data ++ rest)) (hother : other.Holds pending)
    (hheap : ∀ block, (heap block).isSome) (hsmall : pending.length + data.length ≤ 2 ^ 63) :
    ∃ after target, buf.getBuffer heap other (UInt64.ofNat data.length) =
        some (after, target, true) ∧
      after.Reads rest ∧ target.Holds (pending ++ data) := by
  obtain ⟨target, hput, htarget⟩ := hother.putBuffer hreads hheap hsmall
  unfold Buffer.getBuffer
  rw [hput]
  exact ⟨_, target, rfl, hreads.advance buf.mark, htarget⟩

theorem Reads.getBuffer_refuses (hreads : buf.Reads rest) (heap : Heap) (other : Buffer)
    {length : UInt64} (hlength : rest.length < length.toNat) :
    buf.getBuffer heap other length = some (buf, other, false) := by
  have hless : buf.remaining < length := by
    rw [UInt64.lt_iff_toNat_lt, hreads.remaining]
    exact hlength
  unfold Buffer.getBuffer Buffer.putBuffer
  rw [if_pos hless]
  rfl

end Libsax.Net2.Buffer
