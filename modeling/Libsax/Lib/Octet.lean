import Mathlib.Data.LawfulXor.Basic

/-! Bytes and words: checks of all bytes and of a table in one pass, and what exclusive or and
moves by a byte do to each other. -/
namespace Libsax.Lib.Octet

theorem forall_of_fin {p : UInt8 → Prop} (hall : ∀ i : Fin 256, p (UInt8.ofFin i))
    (byte : UInt8) : p byte := hall byte.toFin

theorem forall_entry {α : Type*} {table : List α} {other : α} {p : UInt8 → α → Prop}
    (hall : ∀ entry ∈ table.zipIdx, p (UInt8.ofNat entry.2) entry.1) (byte : UInt8)
    (hbyte : byte.toNat < table.length) : p byte (table.getD byte.toNat other) := by
  have hentry : (table[byte.toNat], byte.toNat) ∈ table.zipIdx :=
    List.mk_mem_zipIdx_iff_getElem?.mpr (List.getElem?_eq_getElem hbyte)
  have hat := hall _ hentry
  rw [UInt8.ofNat_toNat] at hat
  rw [List.getD_eq_getElem?_getD, List.getElem?_eq_getElem hbyte, Option.getD_some]
  exact hat

variable (word other : UInt32) (byte : UInt8)

theorem xor_shiftRight_top : (word ^^^ (other >>> 8)) >>> 24 = word >>> 24 := by
  apply UInt32.toBitVec_inj.mp
  apply BitVec.eq_of_getLsbD_eq
  intro i hi
  have hpast : other.toBitVec.getLsbD (8 + (24 + i)) = false :=
    BitVec.getLsbD_of_ge _ _ (by omega)
  simp [hpast]

theorem shift_or_low : ((word >>> 8) <<< 8) ||| word.toUInt8.toUInt32 = word := by
  have hlow : word.toUInt8.toUInt32.toBitVec = (word.toBitVec.setWidth 8).setWidth 32 := rfl
  apply UInt32.toBitVec_inj.mp
  apply BitVec.eq_of_getLsbD_eq
  intro i hi
  rw [UInt32.toBitVec_or, hlow]
  by_cases hbyte : i < 8
  · simp [hi, hbyte]
  · have hindex : 8 + (i - 8) = i := by omega
    simp [hi, hbyte, hindex]

@[simp] theorem low_shift_or : ((word <<< 8) ||| byte.toUInt32).toUInt8 = byte := by
  apply UInt8.toBitVec_inj.mp
  apply BitVec.eq_of_getLsbD_eq
  intro i hi
  simp [hi]

theorem shift_or_shiftRight (htop : word >>> 24 = 0) :
    ((word <<< 8) ||| byte.toUInt32) >>> 8 = word := by
  apply UInt32.toBitVec_inj.mp
  apply BitVec.eq_of_getLsbD_eq
  intro i hi
  by_cases hhigh : i < 24
  · have hmoved : 8 + i < 32 := by omega
    simp [hi, hmoved]
  · have hindex : 24 + (i - 24) = i := by omega
    have hbit := congrArg (fun w : UInt32 => w.toBitVec.getLsbD (i - 24)) htop
    simp only [UInt32.toBitVec_shiftRight] at hbit
    simp [hindex] at hbit
    rw [BitVec.getLsbD_eq_getElem hi] at hbit
    simp [hi, hbit]

end Libsax.Lib.Octet
