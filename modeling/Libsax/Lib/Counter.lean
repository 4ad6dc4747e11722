import Mathlib.Algebra.Ring.Int.Defs

/-! Counters that are machine integers of 32 bits. -/
namespace Libsax.Lib

variable {amount : Int32}

theorem pos_iff : amount > 0 ↔ 0 < amount.toInt := Int32.lt_iff_toInt_lt

theorem pred_toInt (hpos : 0 < amount.toInt) : (amount - 1).toInt = amount.toInt - 1 := by
  have hlt := amount.toInt_lt
  rw [Int32.toInt_sub]
  exact Int.bmod_eq_of_le (by simp; omega) (by simp; omega)

theorem succ_toInt (hnonneg : 0 ≤ amount.toInt) (hlt : amount.toInt < 2 ^ 31 - 1) :
    (amount + 1).toInt = amount.toInt + 1 := by
  rw [Int32.toInt_add]
  exact Int.bmod_eq_of_le (by simp; omega) (by simp; omega)

theorem succ_toInt_le (amount : Int32) : (amount + 1).toInt ≤ amount.toInt + 1 := by
  have hlow := amount.le_toInt
  have hhigh := amount.toInt_lt
  rw [Int32.toInt_add, Int32.toInt_one]
  simp only [Int.bmod]
  omega

end Libsax.Lib
