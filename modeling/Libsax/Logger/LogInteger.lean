import Libsax.Lib.Numeral
import Libsax.Logger.LogSerializer

/-! Integers in the log. The digits come out of the divisions in reverse and are swapped in
place, in a local buffer of the size that is estimated for the type; the pointers of the
source are offsets into it. -/
namespace Libsax.Logger.LogInteger

open Libsax.Lib Serializer

/-- The first loop; `none` is a store behind the local buffer. -/
def digitsLoop (charset : Nat → UInt8) (base : Nat) :
    Nat → Memory → Nat → Nat → Option (Memory × Nat)
  | 0, _, _, _ => none
  | room + 1, memory, buf, n =>
    let memory := Function.update memory buf (charset (n % base))
    let n := n / base
    if n ≠ 0 then digitsLoop charset base room memory (buf + 1) n else some (memory, buf + 1)

def swapLoop : Memory → Nat → Nat → Memory
  | memory, _, 0 => memory
  | memory, head, buf + 1 =>
    if head < buf then
      let tmp := memory head
      let memory := Function.update memory head (memory buf)
      let memory := Function.update memory buf tmp
      swapLoop memory (head + 1) buf
    else memory

/-- What `uint2str` and `uint2hexstr` have in common, with the room behind `buf`. -/
def uintToStr (charset : Nat → UInt8) (base room : Nat) (memory : Memory) (buf n : Nat) :
    Option (Memory × Nat) := do
  let (memory, stop) ← digitsLoop charset base room memory buf n
  return (swapLoop memory buf stop, stop - buf)

def decimalChar (digit : Nat) : UInt8 := UInt8.ofNat digit + 48

def charset : List UInt8 := [48, 49, 50, 51, 52, 53, 54, 55, 56, 57, 65, 66, 67, 68, 69, 70]

def uint2str (room : Nat) (memory : Memory) (buf n : Nat) : Option (Memory × Nat) :=
  uintToStr decimalChar 10 room memory buf n

def uint2hexstr (room : Nat) (memory : Memory) (buf n : Nat) : Option (Memory × Nat) :=
  uintToStr (fun digit => charset.getD digit 0) 16 room memory buf n

namespace EstimatedSize

def uint8 : Nat := 3
def int16 : Nat := 5 + 1
def uint16 : Nat := 5
def int32 : Nat := 10 + 1
def uint32 : Nat := 10
def int64 : Nat := 19 + 1
def uint64 : Nat := 20
/-- With pointers of eight bytes. -/
def pointer : Nat := 8 * 2 + 2

end EstimatedSize

def minus : UInt8 := 45

/-- The operator of an unsigned type; `buf` is what the local buffer happens to hold. -/
def writeUnsigned (size : Nat) (serializer : LogSerializer) (buf : Memory) (n : Nat) :
    Option LogSerializer := do
  let (buf, len) ← uint2str size buf 0 n
  return write serializer (buf.read len 0)

/-- The operator of a signed type, of a value whose complement is `negated`. -/
def writeSigned (size : Nat) (serializer : LogSerializer) (buf : Memory) (negative : Bool)
    (n negated : Nat) : Option LogSerializer :=
  if !negative then writeUnsigned size serializer buf n
  else do
    let buf := Function.update buf 0 minus
    let (buf, len) ← uint2str (size - 1) buf 1 negated
    return write serializer (buf.read (len + 1) 0)

def writeUint8 (serializer : LogSerializer) (buf : Memory) (u8 : UInt8) :
    Option LogSerializer :=
  writeUnsigned EstimatedSize.uint8 serializer buf u8.toNat

/-- The complement is one of 32 bits and is cut to 16 by the call. -/
def writeInt16 (serializer : LogSerializer) (buf : Memory) (i16 : Int16) :
    Option LogSerializer :=
  writeSigned EstimatedSize.int16 serializer buf (i16 < 0) i16.toUInt16.toNat
    (~~~i16.toUInt16.toUInt32 + 1).toUInt16.toNat

def writeUint16 (serializer : LogSerializer) (buf : Memory) (u16 : UInt16) :
    Option LogSerializer :=
  writeUnsigned EstimatedSize.uint16 serializer buf u16.toNat

def writeInt32 (serializer : LogSerializer) (buf : Memory) (i32 : Int32) :
    Option LogSerializer :=
  writeSigned EstimatedSize.int32 serializer buf (i32 < 0) i32.toUInt32.toNat
    (~~~i32.toUInt32 + 1).toNat

def writeUint32 (serializer : LogSerializer) (buf : Memory) (u32 : UInt32) :
    Option LogSerializer :=
  writeUnsigned EstimatedSize.uint32 serializer buf u32.toNat

def writeInt64 (serializer : LogSerializer) (buf : Memory) (i64 : Int64) :
    Option LogSerializer :=
  writeSigned EstimatedSize.int64 serializer buf (i64 < 0) i64.toUInt64.toNat
    (~~~i64.toUInt64 + 1).toNat

def writeUint64 (serializer : LogSerializer) (buf : Memory) (u64 : UInt64) :
    Option LogSerializer :=
  writeUnsigned EstimatedSize.uint64 serializer buf u64.toNat

def pointerPrefix : List UInt8 := 48 :: 120 :: List.replicate 32 48

def writePointer (serializer : LogSerializer) (buf : Memory) (p : UInt64) :
    Option LogSerializer := do
  let (buf, len) ← uint2hexstr EstimatedSize.pointer buf 0 p.toNat
  let serializer := write serializer (pointerPrefix.take (2 + 8 * 2 - len))
  return write serializer (buf.read len 0)

/-- A value of one of the types. -/
inductive Value where
  | uint8 (u8 : UInt8)
  | int16 (i16 : Int16)
  | uint16 (u16 : UInt16)
  | int32 (i32 : Int32)
  | uint32 (u32 : UInt32)
  | int64 (i64 : Int64)
  | uint64 (u64 : UInt64)

namespace Value

def output (serializer : LogSerializer) (buf : Memory) : Value → Option LogSerializer
  | uint8 u8 => writeUint8 serializer buf u8
  | int16 i16 => writeInt16 serializer buf i16
  | uint16 u16 => writeUint16 serializer buf u16
  | int32 i32 => writeInt32 serializer buf i32
  | uint32 u32 => writeUint32 serializer buf u32
  | int64 i64 => writeInt64 serializer buf i64
  | uint64 u64 => writeUint64 serializer buf u64

def estimatedSize : Value → Nat
  | uint8 _ => EstimatedSize.uint8
  | int16 _ => EstimatedSize.int16
  | uint16 _ => EstimatedSize.uint16
  | int32 _ => EstimatedSize.int32
  | uint32 _ => EstimatedSize.uint32
  | int64 _ => EstimatedSize.int64
  | uint64 _ => EstimatedSize.uint64

def toInt : Value → Int
  | uint8 u8 => u8.toNat
  | int16 i16 => i16.toInt
  | uint16 u16 => u16.toNat
  | int32 i32 => i32.toInt
  | uint32 u32 => u32.toNat
  | int64 i64 => i64.toInt
  | uint64 u64 => u64.toNat

end Value

private theorem ofNat_add_toNat {c : UInt8} {k : Nat} (hk : k ≤ c.toNat) :
    UInt8.ofNat (c.toNat - k) + UInt8.ofNat k = c := by
  apply UInt8.toNat.inj
  have hlt := c.toNat_lt
  rw [UInt8.toNat_add, UInt8.toNat_ofNat', UInt8.toNat_ofNat']
  omega

def decimal : Alphabet 10 where
  char := decimalChar
  digit c := if 48 ≤ c.toNat ∧ c.toNat < 58 then some (c.toNat - 48) else none
  one_lt := by decide
  digit_char := by decide
  char_digit := by
    intro c d hd
    rw [Option.ite_none_right_eq_some] at hd
    obtain ⟨⟨hle, hlt⟩, hd⟩ := hd
    rw [← Option.some.inj hd]
    exact ⟨by omega, ofNat_add_toNat hle⟩

def hexadecimal : Alphabet 16 where
  char digit := charset.getD digit 0
  digit c := if c ∈ charset then some (charset.idxOf c) else none
  one_lt := by decide
  digit_char := by decide
  char_digit := by
    intro c d hd
    rw [Option.ite_none_right_eq_some] at hd
    obtain ⟨hmem, hd⟩ := hd
    rw [← Option.some.inj hd]
    have hlt := List.idxOf_lt_length_of_mem hmem
    exact ⟨hlt, by rw [List.getD_eq_getElem?_getD, List.getElem?_idxOf hmem, Option.getD_some]⟩

/-- The decimal numeral of a number, with a sign if it is negative. -/
def numeral (value : Int) : List UInt8 :=
  if value < 0 then minus :: decimal.numeral value.natAbs else decimal.numeral value.natAbs

def parse (text : List UInt8) : Option Int :=
  if text.head? = some minus then (decimal.parse text.tail).map fun n : Nat => -(n : Int)
  else (decimal.parse text).map fun n : Nat => (n : Int)

/-- Digits without zeros in front, with a sign if they are those of a negative number. -/
def Canonical (text : List UInt8) : Prop :=
  if text.head? = some minus then decimal.Canonical text.tail ∧ decimal.parse text.tail ≠ some 0
  else decimal.Canonical text

variable {base room n : Nat}

private theorem digitsLoop_eq (alphabet : Alphabet base) (memory : Memory) (buf : Nat)
    (hroom : (lowFirst base n).length ≤ room) :
    digitsLoop alphabet.char base room memory buf n =
      some (memory.putAll buf ((lowFirst base n).map alphabet.char),
        buf + (lowFirst base n).length) := by
  induction room generalizing memory buf n with
  | zero => exact absurd (List.length_eq_zero_iff.mp (Nat.le_zero.mp hroom)) (lowFirst_ne_nil _ _)
  | succ room ih =>
    rw [lowFirst_eq alphabet.one_lt] at hroom ⊢
    rw [digitsLoop]
    by_cases hlast : n / base = 0
    · simp [hlast, Memory.putAll]
    · rw [if_neg hlast, List.length_cons] at hroom
      rw [if_pos hlast, if_neg hlast, ih _ _ (Nat.le_of_succ_le_succ hroom), List.length_cons,
        List.map_cons, Memory.putAll, Nat.add_right_comm, Nat.add_assoc]

private theorem putAll_ends (memory : Memory) (i : Nat) (first last : UInt8) (bytes : List UInt8) :
    memory.putAll i (first :: (bytes ++ [last])) =
      Memory.putAll (Function.update (Function.update memory i first) (i + 1 + bytes.length) last)
        (i + 1) bytes := by
  rw [Memory.putAll, Memory.putAll_append, Memory.putAll_update (.inr (le_refl _))]
  rfl

private theorem swapLoop_putAll (memory : Memory) (head : Nat) (bytes : List UInt8) :
    swapLoop (memory.putAll head bytes) head (head + bytes.length) =
      memory.putAll head bytes.reverse := by
  induction bytes using List.bidirectionalRec generalizing memory head with
  | nil =>
    cases head with
    | zero => rfl
    | succ head => exact if_neg (by omega)
  | singleton byte => exact if_neg (by simp)
  | cons_append first bytes last ih =>
    have hlength : head + (first :: (bytes ++ [last])).length = head + 1 + bytes.length + 1 := by
      simp
      omega
    have hne : head ≠ head + 1 + bytes.length := by omega
    rw [hlength, swapLoop, if_pos (by omega)]
    dsimp only
    have hfirst : memory.putAll head (first :: (bytes ++ [last])) head = first := by
      rw [Memory.putAll, Memory.putAll_of_lt (Nat.lt_succ_self head), Function.update_self]
    have hlast :
        memory.putAll head (first :: (bytes ++ [last])) (head + 1 + bytes.length) = last := by
      rw [putAll_ends, Memory.putAll_of_le (le_refl _), Function.update_self]
    rw [hfirst, hlast, putAll_ends, ← Memory.putAll_update (.inl (Nat.lt_succ_self head)),
      ← Memory.putAll_update (.inr (le_refl _)), ih]
    rw [List.reverse_cons, List.reverse_append, List.reverse_singleton, List.singleton_append,
      List.cons_append, putAll_ends, List.length_reverse]
    congr 1
    rw [Function.update_comm hne.symm, Function.update_idem, Function.update_idem]

private theorem uintToStr_eq (alphabet : Alphabet base) (memory : Memory) (buf : Nat)
    (hroom : (alphabet.numeral n).length ≤ room) :
    uintToStr alphabet.char base room memory buf n =
      some (memory.putAll buf (alphabet.numeral n), (alphabet.numeral n).length) := by
  rw [alphabet.numeral_length] at hroom ⊢
  rw [uintToStr, digitsLoop_eq alphabet memory buf hroom]
  have hswap := swapLoop_putAll memory buf ((lowFirst base n).map alphabet.char)
  rw [List.length_map, ← List.map_reverse] at hswap
  simp [hswap, Alphabet.numeral]

variable {size negated : Nat}

private theorem writeUnsigned_eq (serializer : LogSerializer) (buf : Memory)
    (hsize : (decimal.numeral n).length ≤ size) :
    writeUnsigned size serializer buf n = some (write serializer (decimal.numeral n)) := by
  have htext := uintToStr_eq decimal buf 0 hsize
  have hread := Memory.read_of_at (Memory.at_putAll buf 0 (decimal.numeral n))
  unfold writeUnsigned uint2str
  simp [show decimalChar = decimal.char from rfl, htext, hread]

private theorem writeSigned_eq (serializer : LogSerializer) (buf : Memory) {value : Int}
    (hplus : 0 ≤ value → n = value.natAbs) (hminus : value < 0 → negated = value.natAbs)
    (hsize : (numeral value).length ≤ size) :
    writeSigned size serializer buf (value < 0) n negated =
      some (write serializer (numeral value)) := by
  unfold writeSigned numeral at *
  by_cases hnegative : value < 0
  · rw [if_pos hnegative, List.length_cons] at hsize
    have htext := uintToStr_eq decimal (Function.update buf 0 minus) 1 (Nat.le_sub_one_of_lt hsize)
    have hread := Memory.read_of_at
      (Memory.at_putAll buf 0 (minus :: decimal.numeral value.natAbs))
    rw [Memory.putAll, List.length_cons] at hread
    rw [if_neg (by simp [hnegative]), if_pos hnegative, hminus hnegative]
    unfold uint2str
    simp [show decimalChar = decimal.char from rfl, htext, hread]
  · rw [if_neg hnegative] at hsize
    rw [if_pos (by simp [hnegative]), if_neg hnegative, hplus (not_lt.mp hnegative),
      writeUnsigned_eq serializer buf hsize]

theorem toNat_of_nonneg {w : Nat} {x : BitVec w} (hnonneg : 0 ≤ x.toInt) :
    x.toNat = x.toInt.natAbs := by
  have hlt := x.isLt
  rw [BitVec.toInt_eq_toNat_cond] at hnonneg ⊢
  split_ifs at hnonneg ⊢ <;> omega

private theorem complement_of_neg {w : Nat} {x : BitVec w} (hneg : x.toInt < 0) :
    (~~~x + 1#w).toNat = x.toInt.natAbs := by
  have hlt := x.isLt
  rw [← BitVec.neg_eq_not_add, BitVec.toNat_neg]
  rw [BitVec.toInt_eq_toNat_cond] at hneg ⊢
  split_ifs at hneg ⊢ with hsmall
  · omega
  · rw [Nat.mod_eq_of_lt (by omega)]
    omega

private theorem natAbs_le {w : Nat} (x : BitVec w) : x.toInt.natAbs ≤ 2 ^ (w - 1) := by
  have hlt := x.isLt
  rw [BitVec.toInt_eq_toNat_cond]
  cases w with
  | zero =>
    rw [Nat.pow_zero] at hlt
    split_ifs <;> omega
  | succ w =>
    rw [Nat.pow_succ] at hlt ⊢
    rw [Nat.add_sub_cancel]
    split_ifs <;> omega

private theorem complement16 (u16 : UInt16) :
    (~~~u16.toUInt32 + 1).toUInt16.toNat = (~~~u16.toBitVec + 1#16).toNat := by
  simp

private theorem numeral_natCast (n : Nat) : numeral n = decimal.numeral n := by
  rw [numeral, if_neg (by omega), Int.natAbs_natCast]

private theorem numeral_length_le {value : Int} (hsize : 1 < size)
    (hlt : value.natAbs < 10 ^ (size - 1)) : (numeral value).length ≤ size := by
  have hdigits : (decimal.numeral value.natAbs).length ≤ size - 1 := by
    rw [decimal.numeral_length]
    exact lowFirst_length_le decimal.one_lt (by omega) hlt
  unfold numeral
  split_ifs
  · rw [List.length_cons]
    omega
  · omega

private theorem decimal_length_le (hsize : 0 < size) (hlt : n < 10 ^ size) :
    (decimal.numeral n).length ≤ size := by
  rw [decimal.numeral_length]
  exact lowFirst_length_le decimal.one_lt hsize hlt

namespace Value

private theorem numeral_toInt_length_le (value : Value) :
    (numeral value.toInt).length ≤ value.estimatedSize := by
  cases value with
  | uint8 u8 =>
    rw [toInt, numeral_natCast, estimatedSize]
    exact decimal_length_le (by decide) (Nat.lt_of_lt_of_le u8.toNat_lt (by decide))
  | int16 i16 =>
    rw [estimatedSize]
    exact numeral_length_le (by decide) (Nat.lt_of_le_of_lt (natAbs_le i16.toBitVec) (by decide))
  | uint16 u16 =>
    rw [toInt, numeral_natCast, estimatedSize]
    exact decimal_length_le (by decide) (Nat.lt_of_lt_of_le u16.toNat_lt (by decide))
  | int32 i32 =>
    rw [estimatedSize]
    exact numeral_length_le (by decide) (Nat.lt_of_le_of_lt (natAbs_le i32.toBitVec) (by decide))
  | uint32 u32 =>
    rw [toInt, numeral_natCast, estimatedSize]
    exact decimal_length_le (by decide) (Nat.lt_of_lt_of_le u32.toNat_lt (by decide))
  | int64 i64 =>
    rw [estimatedSize]
    exact numeral_length_le (by decide) (Nat.lt_of_le_of_lt (natAbs_le i64.toBitVec) (by decide))
  | uint64 u64 =>
    rw [toInt, numeral_natCast, estimatedSize]
    exact decimal_length_le (by decide) (Nat.lt_of_lt_of_le u64.toNat_lt (by decide))

private theorem output_eq (value : Value) (serializer : LogSerializer) (buf : Memory) :
    value.output serializer buf = some (write serializer (numeral value.toInt)) := by
  have hlength := value.numeral_toInt_length_le
  cases value with
  | uint8 u8 =>
    rw [toInt, numeral_natCast] at hlength ⊢
    exact writeUnsigned_eq serializer buf hlength
  | int16 i16 =>
    have hneg : (decide (i16 < 0)) = decide (i16.toInt < 0) := by
      simp [Int16.lt_iff_toInt_lt]
    rw [output, writeInt16, hneg]
    exact writeSigned_eq serializer buf toNat_of_nonneg
      (fun hneg => (complement16 i16.toUInt16).trans (complement_of_neg hneg)) hlength
  | uint16 u16 =>
    rw [toInt, numeral_natCast] at hlength ⊢
    exact writeUnsigned_eq serializer buf hlength
  | int32 i32 =>
    have hneg : (decide (i32 < 0)) = decide (i32.toInt < 0) := by
      simp [Int32.lt_iff_toInt_lt]
    rw [output, writeInt32, hneg]
    exact writeSigned_eq serializer buf toNat_of_nonneg complement_of_neg hlength
  | uint32 u32 =>
    rw [toInt, numeral_natCast] at hlength ⊢
    exact writeUnsigned_eq serializer buf hlength
  | int64 i64 =>
    have hneg : (decide (i64 < 0)) = decide (i64.toInt < 0) := by
      simp [Int64.lt_iff_toInt_lt]
    rw [output, writeInt64, hneg]
    exact writeSigned_eq serializer buf toNat_of_nonneg complement_of_neg hlength
  | uint64 u64 =>
    rw [toInt, numeral_natCast] at hlength ⊢
    exact writeUnsigned_eq serializer buf hlength

end Value

private theorem head_ne_minus {text : List UInt8} (hcanonical : decimal.Canonical text) :
    text.head? ≠ some minus := by
  intro hhead
  have hdigit := hcanonical.2.1 minus (List.mem_of_mem_head? hhead)
  exact absurd hdigit (by decide)

private theorem canonical_iff (text : List UInt8) (value : Int) :
    Canonical text ∧ parse text = some value ↔ text = numeral value := by
  constructor
  · rintro ⟨hcanonical, hparse⟩
    unfold Canonical at hcanonical
    unfold parse at hparse
    by_cases hsign : text.head? = some minus
    · rw [if_pos hsign] at hcanonical hparse
      obtain ⟨n, hn, rfl⟩ := Option.map_eq_some_iff.mp hparse
      have hpos : n ≠ 0 := fun hzero => hcanonical.2 (hzero ▸ hn)
      obtain ⟨rest, rfl⟩ : ∃ rest, text = minus :: rest :=
        ⟨text.tail, (List.cons_head?_tail hsign).symm⟩
      rw [numeral, if_pos (by omega), Int.natAbs_neg, Int.natAbs_natCast]
      congr 1
      exact decimal.numeral_of_canonical hcanonical.1 hn
    · rw [if_neg hsign] at hcanonical hparse
      obtain ⟨n, hn, rfl⟩ := Option.map_eq_some_iff.mp hparse
      rw [numeral_natCast]
      exact decimal.numeral_of_canonical hcanonical hn
  · rintro rfl
    have hcanonical := decimal.canonical_numeral value.natAbs
    have hparse := decimal.parse_numeral value.natAbs
    unfold Canonical parse numeral
    by_cases hneg : value < 0
    · rw [if_pos hneg]
      simp only [List.head?_cons, if_true, List.tail_cons, hparse, Option.map_some]
      refine ⟨⟨hcanonical, fun hzero => ?_⟩, ?_⟩
      · have := Option.some.inj hzero
        omega
      · congr 1
        omega
    · rw [if_neg hneg, if_neg (head_ne_minus hcanonical), if_neg (head_ne_minus hcanonical), hparse]
      refine ⟨hcanonical, ?_⟩
      rw [Option.map_some]
      congr 1
      omega

private theorem hexadecimal_length_le (p : UInt64) : (hexadecimal.numeral p.toNat).length ≤ 16 := by
  rw [hexadecimal.numeral_length]
  exact lowFirst_length_le hexadecimal.one_lt (by decide) (Nat.lt_of_lt_of_le p.toNat_lt (by decide))

private theorem uint2hexstr_eq (buf : Memory) (p : UInt64) :
    uint2hexstr EstimatedSize.pointer buf 0 p.toNat =
      some (buf.putAll 0 (hexadecimal.numeral p.toNat), (hexadecimal.numeral p.toNat).length) :=
  uintToStr_eq hexadecimal buf 0 (Nat.le_trans (hexadecimal_length_le p) (by decide))

/-- What is written is the canonical numeral, in decimal or in hexadecimal, which is no
longer than the local buffer; a pointer is filled up with zeros. -/
theorem integers_exact (serializer : LogSerializer) (buf : Memory) :
    (∀ value : Value, value.output serializer buf = some (write serializer (numeral value.toInt)) ∧
      (∀ text, Canonical text ∧ parse text = some value.toInt ↔ text = numeral value.toInt) ∧
      (numeral value.toInt).length ≤ value.estimatedSize) ∧
    ∀ p : UInt64, ∃ text after, uint2hexstr EstimatedSize.pointer buf 0 p.toNat =
        some (after, text.length) ∧ after.read text.length 0 = text ∧
      hexadecimal.Canonical text ∧ hexadecimal.parse text = some p.toNat ∧
      text.length ≤ EstimatedSize.pointer ∧
      writePointer serializer buf p = some (write (write serializer
        (48 :: 120 :: List.replicate (16 - text.length) 48)) text) := by
  constructor
  · intro value
    exact ⟨value.output_eq serializer buf, fun text => canonical_iff text value.toInt,
      value.numeral_toInt_length_le⟩
  · intro p
    have hlength := hexadecimal_length_le p
    have hread := Memory.read_of_at (Memory.at_putAll buf 0 (hexadecimal.numeral p.toNat))
    have hzeros : pointerPrefix.take (2 + 8 * 2 - (hexadecimal.numeral p.toNat).length) =
        48 :: 120 :: List.replicate (16 - (hexadecimal.numeral p.toNat).length) 48 := by
      have hcount : 2 + 8 * 2 - (hexadecimal.numeral p.toNat).length =
          16 - (hexadecimal.numeral p.toNat).length + 2 := by omega
      rw [hcount, pointerPrefix, List.take_succ_cons, List.take_succ_cons, List.take_replicate,
        Nat.min_eq_left (by omega)]
    refine ⟨hexadecimal.numeral p.toNat, _, uint2hexstr_eq buf p, hread,
      hexadecimal.canonical_numeral _, hexadecimal.parse_numeral _,
      Nat.le_trans hlength (by decide), ?_⟩
    simp [writePointer, uint2hexstr_eq, hread, hzeros]

end Libsax.Logger.LogInteger
