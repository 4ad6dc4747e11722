import Libsax.Memory.Slab

/-! The bits of chunks: which are set by what, and what the searches find. -/
namespace Libsax.Memory.SlabPool

variable {word : BitVec 64} {words : Nat → BitVec 64} {i j m n count : Nat}

theorem getLsbD_bit (i : Nat) (hj : j < 64) : (bit i).getLsbD j = decide (j = i) := by
  unfold bit
  rw [BitVec.getLsbD_shiftLeft, BitVec.getLsbD_one, decide_eq_true hj, Bool.true_and,
    Bool.eq_iff_iff]
  simp only [Bool.and_eq_true, Bool.not_eq_true', decide_eq_false_iff_not, decide_eq_true_eq]
  omega

private theorem eq_of_bits {x y : BitVec 64} (hbits : ∀ j, j < 64 → x.getLsbD j = y.getLsbD j) :
    x = y :=
  BitVec.eq_of_getLsbD_eq fun j hj => hbits j hj

theorem and_bit_ne_zero (hi : i < 64) : word &&& bit i ≠ 0 ↔ word.getLsbD i = true := by
  constructor
  · intro hne
    by_contra hclear
    refine hne (eq_of_bits fun j hj => ?_)
    rw [BitVec.getLsbD_and, getLsbD_bit i hj]
    rw [Bool.not_eq_true] at hclear
    by_cases hji : j = i
    · simp [hji, hclear]
    · simp [hji]
  · intro hset hzero
    have hbit := congrArg (BitVec.getLsbD · i) hzero
    simp only [BitVec.getLsbD_and, getLsbD_bit i hi, hset] at hbit
    simp at hbit

theorem getLsbD_set (word : BitVec 64) (i : Nat) (hj : j < 64) :
    (word ||| bit i).getLsbD j = (word.getLsbD j || decide (j = i)) := by
  rw [BitVec.getLsbD_or, getLsbD_bit i hj]

theorem getLsbD_clear (word : BitVec 64) (i : Nat) (hj : j < 64) :
    (word &&& ~~~ bit i).getLsbD j = (word.getLsbD j && decide (j ≠ i)) := by
  rw [BitVec.getLsbD_and, BitVec.getLsbD_not, getLsbD_bit i hj, decide_eq_true hj, Bool.true_and,
    decide_not]

theorem eq_busy_iff : word = slabBusy ↔ ∀ j, j < 64 → word.getLsbD j = true := by
  have hbusy : slabBusy = BitVec.allOnes 64 := by decide
  rw [hbusy]
  constructor
  · rintro rfl j hj
    rw [BitVec.getLsbD_allOnes, decide_eq_true hj]
  · intro hset
    refine eq_of_bits fun j hj => ?_
    rw [hset j hj, BitVec.getLsbD_allOnes, decide_eq_true hj]

private theorem eq_zero_iff : word = 0 ↔ ∀ j, j < 64 → word.getLsbD j = false := by
  constructor
  · rintro rfl j _
    exact BitVec.getLsbD_zero
  · intro hclear
    exact eq_of_bits fun j hj => (hclear j hj).trans BitVec.getLsbD_zero.symm

theorem firstClear_some (hfound : firstClear word count i = some m) (hbound : i + count ≤ 64) :
    i ≤ m ∧ m < i + count ∧ word.getLsbD m = false ∧ ∀ j, i ≤ j → j < m → word.getLsbD j = true := by
  induction count generalizing i with
  | zero => cases hfound
  | succ count ih =>
    unfold firstClear at hfound
    split at hfound
    · next hset =>
      obtain ⟨hle, hlt, hclear, hbefore⟩ := ih hfound (by omega)
      refine ⟨by omega, by omega, hclear, fun j hj hjm => ?_⟩
      rcases Nat.eq_or_lt_of_le hj with rfl | hlater
      · exact (and_bit_ne_zero (by omega)).mp hset
      · exact hbefore j hlater hjm
    · next hset =>
      obtain rfl := Option.some.inj hfound
      refine ⟨Nat.le_refl i, by omega, ?_, fun j hj hjm => absurd hjm (Nat.not_lt.mpr hj)⟩
      rw [and_bit_ne_zero (by omega), Bool.not_eq_true] at hset
      exact hset

theorem firstClear_none (hfound : firstClear word count i = none) (hbound : i + count ≤ 64) :
    ∀ j, i ≤ j → j < i + count → word.getLsbD j = true := by
  induction count generalizing i with
  | zero => exact fun j hj hlt => absurd hlt (Nat.not_lt.mpr hj)
  | succ count ih =>
    unfold firstClear at hfound
    split at hfound
    · next hset =>
      intro j hj hlt
      rcases Nat.eq_or_lt_of_le hj with rfl | hlater
      · exact (and_bit_ne_zero (by omega)).mp hset
      · exact ih hfound (by omega) j hlater (by omega)
    · cases hfound

theorem firstWord_some (hfound : firstWord words count n = some m) :
    n ≤ m ∧ m < n + count ∧ words m ≠ slabBusy ∧ ∀ j, n ≤ j → j < m → words j = slabBusy := by
  induction count generalizing n with
  | zero => cases hfound
  | succ count ih =>
    unfold firstWord at hfound
    split at hfound
    · next hfree =>
      obtain rfl := Option.some.inj hfound
      exact ⟨Nat.le_refl n, by omega, hfree, fun j hj hjm => absurd hjm (Nat.not_lt.mpr hj)⟩
    · next hbusy =>
      obtain ⟨hle, hlt, hfree, hbefore⟩ := ih hfound
      refine ⟨by omega, by omega, hfree, fun j hj hjm => ?_⟩
      rcases Nat.eq_or_lt_of_le hj with rfl | hlater
      · exact not_not.mp hbusy
      · exact hbefore j hlater hjm

theorem firstWord_none : firstWord words count n = none ↔
    ∀ j, n ≤ j → j < n + count → words j = slabBusy := by
  induction count generalizing n with
  | zero => exact ⟨fun _ j hj hlt => absurd hlt (Nat.not_lt.mpr hj), fun _ => rfl⟩
  | succ count ih =>
    unfold firstWord
    split
    · next hfree =>
      constructor
      · intro hfound
        cases hfound
      · intro hbusy
        exact absurd (hbusy n (Nat.le_refl n) (by omega)) hfree
    · next hbusy =>
      rw [ih]
      refine ⟨fun hall j hj hlt => ?_, fun hall j hj hlt => hall j (by omega) (by omega)⟩
      rcases Nat.eq_or_lt_of_le hj with rfl | hlater
      · exact not_not.mp hbusy
      · exact hall j hlater (by omega)

private theorem getLsbD_ones (hi : i ≤ 63) (hj : j < 64) : (bit i - 1).getLsbD j = decide
    (j < i) := by
  have hpow : 2 ^ i < 2 ^ 64 := Nat.pow_lt_pow_right (by omega) (by omega)
  have hpos : 0 < 2 ^ i := Nat.two_pow_pos i
  have heq : bit i - 1 = BitVec.ofNat 64 (2 ^ i - 1) := by
    apply BitVec.eq_of_toNat_eq
    unfold bit
    rw [BitVec.toNat_sub, BitVec.toNat_shiftLeft, BitVec.toNat_ofNat, BitVec.toNat_ofNat,
      Nat.shiftLeft_eq, Nat.one_mod, Nat.one_mul, Nat.mod_eq_of_lt hpow]
    have hone : (1 : BitVec 64).toNat = 1 := rfl
    omega
  rw [heq, BitVec.getLsbD_ofNat, Nat.testBit_two_pow_sub_one, decide_eq_true hj, Bool.true_and]

private theorem getLsbD_mapMask (hj : j < 64) : slabMapMask.getLsbD j = decide
    (slabMapShift ≤ j) := by
  have hall : ∀ k : Fin 64, slabMapMask.getLsbD k = decide (slabMapShift ≤ k) := by decide
  exact hall ⟨j, hj⟩

private theorem getLsbD_mask (hcount : count ≤ 32) (hj : j < 64) :
    (mask count).getLsbD j = decide (slabMapShift ≤ j ∧ j < slabMapShift + count) := by
  unfold mask slabMapShift
  rw [BitVec.getLsbD_shiftLeft, decide_eq_true hj, Bool.true_and, getLsbD_ones (by omega) (by omega),
    Bool.eq_iff_iff]
  simp only [Bool.and_eq_true, Bool.not_eq_true', decide_eq_false_iff_not, decide_eq_true_eq]
  omega

private theorem getLsbD_shiftMask (hj : j < 64) : slabShiftMask.getLsbD j = decide (j < 4) := by
  have hall : ∀ k : Fin 64, slabShiftMask.getLsbD k = decide (k.val < 4) := by decide
  exact hall ⟨j, hj⟩

theorem set_and_shiftMask (hi : 4 ≤ i) :
    (word ||| bit i) &&& slabShiftMask = word &&& slabShiftMask := by
  refine eq_of_bits fun j hj => ?_
  rw [BitVec.getLsbD_and, BitVec.getLsbD_and, getLsbD_set _ _ hj, getLsbD_shiftMask hj]
  by_cases hlt : j < 4
  · rw [decide_eq_false (show ¬ j = i by omega), Bool.or_false]
  · rw [decide_eq_false hlt, Bool.and_false, Bool.and_false]

theorem clear_and_shiftMask (hi : 4 ≤ i) :
    (word &&& ~~~ bit i) &&& slabShiftMask = word &&& slabShiftMask := by
  refine eq_of_bits fun j hj => ?_
  calc ((word &&& ~~~ bit i) &&& slabShiftMask).getLsbD j
      = ((word &&& ~~~ bit i).getLsbD j && slabShiftMask.getLsbD j) := BitVec.getLsbD_and
    _ = (word.getLsbD j && slabShiftMask.getLsbD j) := ?_
    _ = (word &&& slabShiftMask).getLsbD j := BitVec.getLsbD_and.symm
  rw [getLsbD_clear _ _ hj, getLsbD_shiftMask hj]
  by_cases hlt : j < 4
  · rw [decide_eq_true (show j ≠ i by omega), Bool.and_true]
  · rw [decide_eq_false hlt, Bool.and_false, Bool.and_false]

theorem ne_zero_iff : word ≠ 0 ↔ ∃ j, j < 64 ∧ word.getLsbD j = true := by
  rw [Ne, eq_zero_iff]
  constructor
  · intro hnot
    by_contra hnone
    exact hnot fun j hj => Bool.eq_false_iff.mpr fun hset => hnone ⟨j, hj, hset⟩
  · rintro ⟨j, hj, hset⟩ hclear
    rw [hclear j hj] at hset
    cases hset

theorem above_ne_zero (hcount : count ≤ 63) : word &&& ~~~ (bit count - 1) ≠ 0 ↔
    ∃ j, count ≤ j ∧ j < 64 ∧ word.getLsbD j = true := by
  rw [ne_zero_iff]
  refine exists_congr fun j => ?_
  constructor
  · rintro ⟨hj, hset⟩
    rw [BitVec.getLsbD_and, BitVec.getLsbD_not, getLsbD_ones hcount hj] at hset
    simp only [Bool.and_eq_true, Bool.not_eq_true', decide_eq_true_eq, decide_eq_false_iff_not,
      Nat.not_lt] at hset
    exact ⟨hset.2.2, hj, hset.1⟩
  · rintro ⟨hle, hj, hset⟩
    refine ⟨hj, ?_⟩
    rw [BitVec.getLsbD_and, BitVec.getLsbD_not, getLsbD_ones hcount hj, hset, decide_eq_true hj,
      decide_eq_false (Nat.not_lt.mpr hle)]
    rfl

theorem small_and_shiftMask (hi : i < 16) :
    BitVec.ofNat 64 i &&& slabShiftMask = BitVec.ofNat 64 i := by
  have hall : ∀ k : Fin 16, BitVec.ofNat 64 k &&& slabShiftMask = BitVec.ofNat 64 k := by decide
  exact hall ⟨i, hi⟩

theorem getLsbD_first (hj : j < 64) :
    (BitVec.ofNat 64 (2 <<< i - 1)).getLsbD j = decide (j ≤ i) := by
  rw [Nat.shiftLeft_eq, show 2 * 2 ^ i = 2 ^ (i + 1) by rw [Nat.pow_succ]; omega,
    BitVec.getLsbD_ofNat, Nat.testBit_two_pow_sub_one, decide_eq_true hj, Bool.true_and]
  exact decide_eq_decide.mpr Nat.lt_succ_iff

theorem big_and_shiftMask (hi : i < 16) :
    (bit slabMapShift ||| BitVec.ofNat 64 i) &&& slabShiftMask = BitVec.ofNat 64 i := by
  have hall : ∀ k : Fin 16, (bit slabMapShift ||| BitVec.ofNat 64 k) &&& slabShiftMask =
      BitVec.ofNat 64 k := by decide
  exact hall ⟨i, hi⟩

theorem getLsbD_big (hi : i < 16) (hj : j < 32) :
    (bit slabMapShift ||| BitVec.ofNat 64 i).getLsbD (slabMapShift + j) = decide (j = 0) := by
  have hhigh : (BitVec.ofNat 64 i).getLsbD (slabMapShift + j) = false := by
    have hpow : 2 ^ 4 ≤ 2 ^ (slabMapShift + j) :=
      Nat.pow_le_pow_right (by omega) (Nat.le_add_right_of_le (by decide))
    rw [BitVec.getLsbD_ofNat, Nat.testBit_lt_two_pow (Nat.lt_of_lt_of_le hi hpow), Bool.and_false]
  have hlt : slabMapShift + j < 64 := by
    unfold slabMapShift
    omega
  rw [BitVec.getLsbD_or, getLsbD_bit _ hlt, hhigh, Bool.or_false]
  exact decide_eq_decide.mpr ⟨fun heq => by omega, fun heq => by omega⟩

theorem slabPageStart_eq : slabPageStart = bit 63 := by decide

theorem getLsbD_few (hn : n < 2 ^ 55) (hj : 55 ≤ j) : (BitVec.ofNat 64 n).getLsbD j = false := by
  rw [BitVec.getLsbD_ofNat, Nat.testBit_lt_two_pow, Bool.and_false]
  exact Nat.lt_of_lt_of_le hn (Nat.pow_le_pow_right (by omega) hj)

theorem toNat_few (hn : n < 2 ^ 55) : (BitVec.ofNat 64 n).toNat = n := by
  rw [BitVec.toNat_ofNat, Nat.mod_eq_of_lt (by omega)]

theorem few_ne_busy (hn : n < 2 ^ 55) : BitVec.ofNat 64 n ≠ slabPageBusy := by
  intro heq
  have hset := eq_busy_iff.mp heq 55 (by omega)
  rw [getLsbD_few hn (Nat.le_refl 55)] at hset
  cases hset

theorem few_ne_zero (hn : n < 2 ^ 55) (hpos : 0 < n) : BitVec.ofNat 64 n ≠ 0 := by
  intro heq
  have hnat := congrArg BitVec.toNat heq
  rw [toNat_few hn] at hnat
  exact absurd hnat (Nat.ne_of_gt hpos)

theorem start_ne_busy (hn : n < 2 ^ 55) : BitVec.ofNat 64 n ||| slabPageStart ≠ slabPageBusy := by
  intro heq
  have hset := eq_busy_iff.mp heq 55 (by omega)
  rw [slabPageStart_eq, getLsbD_set _ _ (by omega), getLsbD_few hn (Nat.le_refl 55)] at hset
  cases hset

theorem start_ne_zero (n : Nat) : BitVec.ofNat 64 n ||| slabPageStart ≠ 0 := by
  refine ne_zero_iff.mpr ⟨63, by omega, ?_⟩
  rw [slabPageStart_eq, getLsbD_set _ _ (by omega), decide_eq_true rfl, Bool.or_true]

theorem start_cleared (hn : n < 2 ^ 55) :
    ((BitVec.ofNat 64 n ||| slabPageStart) &&& ~~~ slabPageStart).toNat = n := by
  have heq : (BitVec.ofNat 64 n ||| slabPageStart) &&& ~~~ slabPageStart = BitVec.ofNat 64 n := by
    refine eq_of_bits fun j hj => ?_
    rw [slabPageStart_eq, getLsbD_clear _ _ hj, getLsbD_set _ _ hj]
    by_cases hstart : j = 63
    · rw [hstart, decide_eq_false (not_not.mpr rfl), Bool.and_false, getLsbD_few hn (by omega)]
    · rw [decide_eq_false hstart, decide_eq_true hstart, Bool.or_false, Bool.and_true]
  rw [heq, toNat_few hn]

theorem few_cleared (hn : n < 2 ^ 55) : (BitVec.ofNat 64 n &&& ~~~ slabPageStart).toNat = n := by
  have heq : BitVec.ofNat 64 n &&& ~~~ slabPageStart = BitVec.ofNat 64 n := by
    refine eq_of_bits fun j hj => ?_
    rw [slabPageStart_eq, getLsbD_clear _ _ hj]
    by_cases hstart : j = 63
    · rw [hstart, decide_eq_false (not_not.mpr rfl), Bool.and_false, getLsbD_few hn (by omega)]
    · rw [decide_eq_true hstart, Bool.and_true]
  rw [heq, toNat_few hn]

theorem map_eq_mask (hcount : count ≤ 32) (hclear : ∀ n, count ≤ n → n < 32 →
    word.getLsbD (slabMapShift + n) = false) : word &&& slabMapMask = mask count ↔
      ∀ n, n < count → word.getLsbD (slabMapShift + n) = true := by
  have hat : ∀ j, j < 64 → ((word &&& slabMapMask).getLsbD j = (mask count).getLsbD j ↔
      (slabMapShift ≤ j → word.getLsbD j = decide (j < slabMapShift + count))) := by
    intro j hj
    rw [BitVec.getLsbD_and, getLsbD_mapMask hj, getLsbD_mask hcount hj]
    by_cases hupper : slabMapShift ≤ j
    · simp [hupper]
    · simp [hupper]
  constructor
  · intro heq n hn
    have hbit := (hat (slabMapShift + n) (by unfold slabMapShift; omega)).mp (by rw [heq])
      (Nat.le_add_right _ n)
    rw [hbit, decide_eq_true (by omega)]
  · intro hset
    refine eq_of_bits fun j hj => (hat j hj).mpr fun hupper => ?_
    obtain ⟨n, rfl⟩ := Nat.exists_eq_add_of_le hupper
    unfold slabMapShift at hj
    by_cases hn : n < count
    · rw [hset n hn, decide_eq_true (by omega)]
    · rw [hclear n (by omega) (by omega), decide_eq_false (by omega)]

theorem map_ne_zero : word &&& slabMapMask ≠ 0 ↔
    ∃ n, n < 32 ∧ word.getLsbD (slabMapShift + n) = true := by
  rw [Ne, eq_zero_iff]
  constructor
  · intro hnot
    by_contra hnone
    refine hnot fun j hj => ?_
    rw [BitVec.getLsbD_and, getLsbD_mapMask hj]
    by_cases hupper : slabMapShift ≤ j
    · obtain ⟨n, rfl⟩ := Nat.exists_eq_add_of_le hupper
      unfold slabMapShift at hj
      have hclear : word.getLsbD (slabMapShift + n) = false :=
        Bool.eq_false_iff.mpr fun hset => hnone ⟨n, by omega, hset⟩
      rw [hclear, Bool.false_and]
    · rw [decide_eq_false hupper, Bool.and_false]
  · rintro ⟨n, hn, hset⟩ hzero
    have hbit := hzero (slabMapShift + n) (by unfold slabMapShift; omega)
    rw [BitVec.getLsbD_and, getLsbD_mapMask (by unfold slabMapShift; omega), hset,
      decide_eq_true (Nat.le_add_right _ n)] at hbit
    cases hbit

end Libsax.Memory.SlabPool
