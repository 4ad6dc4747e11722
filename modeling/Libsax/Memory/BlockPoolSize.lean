import Libsax.Memory.BlockPool

/-! The sizes of a block pool. How many blocks are available in some bytes and how many
bytes blocks need belong together, once there are bytes enough for the pool itself. -/
namespace Libsax.Memory.BlockPool

variable {total blockSize count : Int}

/-- What so many blocks take up, with the pool itself. -/
def room (blockSize count : Int) : Int := (blockSize + 8 + 8) * count + 48

/-- A count is an `int`, and the product that `g_fsb_needed` makes of it does not overflow. -/
def InRange (blockSize count : Int) : Prop :=
  0 ≤ count ∧ count < 2 ^ 31 ∧ room blockSize count < 2 ^ 63

instance (blockSize count : Int) : Decidable (InRange blockSize count) :=
  inferInstanceAs (Decidable (_ ∧ _))

/-- The sizes are small enough for the blocks that the bytes really hold, and one more. -/
def Small (total blockSize : Int) : Prop :=
  InRange blockSize (max (total - 48) 0 / (blockSize + 8 + 8) + 1)

instance (total blockSize : Int) : Decidable (Small total blockSize) :=
  inferInstanceAs (Decidable (InRange _ _))

/-- As many blocks as are available fit and make a pool, and one more does not. -/
structure Adjoint (total blockSize : Int) : Prop where
  nonneg : 0 ≤ available total blockSize
  fits : 1 ≤ available total blockSize → InRange blockSize (available total blockSize) ∧
    needed blockSize (Int32.ofInt (available total blockSize)) ≤ total
  most : InRange blockSize (available total blockSize + 1) ∧
    total < needed blockSize (Int32.ofInt (available total blockSize + 1))
  builds : 1 ≤ available total blockSize → ∀ memory,
    (init (some memory) total blockSize (Int32.ofInt (available total blockSize))).isSome
  refuses : ∀ addr,
    init addr total blockSize (Int32.ofInt (available total blockSize + 1)) = none

private theorem toInt_count (hrange : InRange blockSize count) :
    (Int32.ofInt count).toInt = count := by
  obtain ⟨hnonneg, hint, -⟩ := hrange
  exact Int32.toInt_ofInt_of_le (by omega) (by omega)

private theorem needed_eq (hsize : 1 ≤ blockSize) (hrange : InRange blockSize count) :
    needed blockSize (Int32.ofInt count) = room blockSize count := by
  have hroom := hrange.2.2
  have hproduct : 0 ≤ (blockSize + 8 + 8) * count := Int.mul_nonneg (by omega) hrange.1
  unfold needed
  rw [toInt_count hrange]
  unfold room at hroom ⊢
  exact Int.bmod_eq_of_le (by omega) (by omega)

private theorem available_eq (hsize : 1 ≤ blockSize) (hword : blockSize < 2 ^ 63)
    (hpool : 48 ≤ total)
    (htotal : total < 2 ^ 63) :
    available total blockSize = (total - 48) / (blockSize + 8 + 8) := by
  have hrest : (total - 48).bmod (2 ^ 64) = total - 48 :=
    Int.bmod_eq_of_le (by omega) (by omega)
  have hnonneg : 0 ≤ (total - 48) / (blockSize + 8 + 8) :=
    Int.ediv_nonneg (by omega) (by omega)
  have hle : (total - 48) / (blockSize + 8 + 8) ≤ total - 48 :=
    Int.ediv_le_self _ (by omega)
  unfold available
  dsimp only
  rw [hrest, Int.emod_eq_of_lt (by omega) (by omega), Int.emod_eq_of_lt (by omega) (by omega)]
  exact Int.bmod_eq_of_le (by omega) (by omega)

private theorem available_pos (hsize : 1 ≤ blockSize) (hword : blockSize < 2 ^ 63)
    (hnonneg : 0 ≤ total)
    (hshort : total < 48) : 1 ≤ available total blockSize := by
  have hrest : (total - 48).bmod (2 ^ 64) = total - 48 :=
    Int.bmod_eq_of_le (by omega) (by omega)
  have hwrapped : (total - 48) % 2 ^ 64 = 2 ^ 64 + (total - 48) := by
    omega
  have hone : 1 ≤ (2 ^ 64 + (total - 48)) / (blockSize + 8 + 8) := by
    rw [Int.le_ediv_iff_mul_le (by omega)]
    omega
  have hlt : (2 ^ 64 + (total - 48)) / (blockSize + 8 + 8) < 2 ^ 63 := by
    rw [Int.ediv_lt_iff_lt_mul (by omega)]
    omega
  unfold available
  dsimp only
  rw [hrest, hwrapped, Int.emod_eq_of_lt (by omega) (by omega),
    Int.bmod_eq_of_le (by omega) (by omega)]
  exact hone

private theorem room_le_iff (hsize : 1 ≤ blockSize) (hword : blockSize < 2 ^ 63)
    (hpool : 48 ≤ total)
    (htotal : total < 2 ^ 63) :
    room blockSize count ≤ total ↔ count ≤ available total blockSize := by
  rw [available_eq hsize hword hpool htotal, Int.le_ediv_iff_mul_le (by omega),
    Int.mul_comm count]
  unfold room
  omega

theorem Small.words (hsize : 1 ≤ blockSize) (hsmall : Small total blockSize) :
    blockSize < 2 ^ 63 ∧ total < 2 ^ 63 := by
  obtain ⟨hblocks, -, hroom⟩ := hsmall
  have hpos : 0 < blockSize + 8 + 8 := by omega
  have hbytes : max (total - 48) 0 <
      (max (total - 48) 0 / (blockSize + 8 + 8) + 1) * (blockSize + 8 + 8) :=
    Int.lt_ediv_add_one_mul_self _ hpos
  have hblock : (blockSize + 8 + 8) * 1 ≤
      (blockSize + 8 + 8) * (max (total - 48) 0 / (blockSize + 8 + 8) + 1) :=
    Int.mul_le_mul_of_nonneg_left
      (Int.le_add_of_nonneg_left (Int.ediv_nonneg (Int.le_max_right _ _) (by omega))) (by omega)
  unfold room at hroom
  rw [Int.mul_comm] at hbytes
  have hmax := Int.le_max_left (total - 48) 0
  omega

private theorem init_isSome_iff (hsize : 1 ≤ blockSize) (hrange : InRange blockSize count)
    (memory : Pool) : (init (some memory) total blockSize (Int32.ofInt count)).isSome ↔
      1 ≤ count ∧ room blockSize count ≤ total := by
  unfold init
  rw [needed_eq hsize hrange, toInt_count hrange]
  simp only [Option.bind_eq_bind, Option.bind_some]
  split_ifs with hvalid
  · exact iff_of_true rfl ⟨hvalid.2.1, hvalid.2.2⟩
  · exact iff_of_false Bool.false_ne_true fun hfits => hvalid ⟨by omega, by omega, hfits.2⟩

private theorem le_room (hsize : 1 ≤ blockSize) (hnonneg : 0 ≤ count) : 48 ≤ room blockSize count :=
  Int.le_add_of_nonneg_left (Int.mul_nonneg (by omega) hnonneg)

private theorem adjoint_of_le (hsize : 1 ≤ blockSize) (hsmall : Small total blockSize)
    (hpool : 48 ≤ total) : Adjoint total blockSize := by
  obtain ⟨hword, htotal⟩ := hsmall.words hsize
  have hcount := available_eq hsize hword hpool htotal
  have hfits : room blockSize (available total blockSize) ≤ total :=
    (room_le_iff hsize hword hpool htotal).mpr (Int.le_refl _)
  have hmost : total < room blockSize (available total blockSize + 1) :=
    Int.not_le.mp fun hle =>
      Int.not_le.mpr (Int.lt_succ _) ((room_le_iff hsize hword hpool htotal).mp hle)
  have hnext : InRange blockSize (available total blockSize + 1) := by
    unfold Small at hsmall
    rw [Int.max_eq_left (by omega), ← hcount] at hsmall
    exact hsmall
  have hnonneg : 0 ≤ available total blockSize := by
    rw [hcount]
    exact Int.ediv_nonneg (by omega) (by omega)
  have hrange : InRange blockSize (available total blockSize) :=
    ⟨hnonneg, Int.lt_trans (Int.lt_succ _) hnext.2.1, Int.lt_of_le_of_lt hfits htotal⟩
  refine ⟨hnonneg, fun hone => ⟨hrange, ?_⟩, ⟨hnext, ?_⟩, fun hone memory => ?_, fun addr => ?_⟩
  · rw [needed_eq hsize hrange]
    exact hfits
  · rw [needed_eq hsize hnext]
    exact hmost
  · exact (init_isSome_iff hsize hrange memory).mpr ⟨hone, hfits⟩
  · cases addr with
    | none => rfl
    | some memory =>
      refine Option.not_isSome_iff_eq_none.mp fun hsome => ?_
      exact Int.not_le.mpr hmost ((init_isSome_iff hsize hnext memory).mp hsome).2

/-- The sizes are adjoint just where the bytes hold the pool itself: in fewer bytes, blocks seem
to be available that do not fit. -/
theorem adjoint_iff (hsize : 1 ≤ blockSize) (hnonneg : 0 ≤ total)
    (hsmall : Small total blockSize) : Adjoint total blockSize ↔ 48 ≤ total := by
  refine ⟨fun hadjoint => ?_, adjoint_of_le hsize hsmall⟩
  by_contra hshort
  obtain ⟨hrange, hfits⟩ := hadjoint.fits
    (available_pos hsize (hsmall.words hsize).1 hnonneg (Int.not_le.mp hshort))
  rw [needed_eq hsize hrange] at hfits
  exact hshort (Int.le_trans (le_room hsize hrange.1) hfits)

/-- A hundred bytes hold two blocks of four. -/
theorem adjoint_iff_hundred : available 100 4 = 2 ∧ Adjoint 100 4 :=
  ⟨by decide, (adjoint_iff (by decide) (by decide) (by decide)).mpr (by decide)⟩

/-- In no bytes at all, more than 2^59 blocks of one byte seem to be available. -/
theorem available_overruns :
    ¬∀ total blockSize : Int, 1 ≤ blockSize → 0 ≤ total → Small total blockSize →
      1 ≤ available total blockSize →
        needed blockSize (Int32.ofInt (available total blockSize)) ≤ total := by
  intro hall
  exact absurd (hall 0 1 (by decide) (by decide) (by decide) (by decide)) (by decide)

end Libsax.Memory.BlockPool
