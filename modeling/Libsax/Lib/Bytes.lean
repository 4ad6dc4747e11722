import Mathlib.Algebra.Ring.Nat
import Mathlib.Data.List.Basic

/-! Numbers as sequences of bytes, the least significant byte first. -/
namespace Libsax.Lib.Bytes

def encode : Nat → Nat → List UInt8
  | 0, _ => []
  | length + 1, number => UInt8.ofNat number :: encode length (number / 256)

def decode : List UInt8 → Nat
  | [] => 0
  | byte :: rest => byte.toNat + 256 * decode rest

@[simp] theorem encode_length (length number : Nat) : (encode length number).length = length := by
  induction length generalizing number with
  | zero => rfl
  | succ length ih => simp [encode, ih]

theorem encode_add (low high number : Nat) :
    encode (low + high) number = encode low number ++ encode high (number / 256 ^ low) := by
  induction low generalizing number with
  | zero => simp [encode]
  | succ low ih =>
    have hpow : number / 256 / 256 ^ low = number / 256 ^ (low + 1) := by
      rw [Nat.div_div_eq_div_mul, Nat.pow_succ']
    rw [Nat.succ_add, encode, encode, ih, hpow]
    rfl

theorem decode_encode (length number : Nat) :
    decode (encode length number) = number % 256 ^ length := by
  induction length generalizing number with
  | zero => simp [encode, decode, Nat.mod_one]
  | succ length ih =>
    have hbyte : (UInt8.ofNat number).toNat = number % 256 := UInt8.toNat_ofNat'
    have hpow : 256 ^ (length + 1) = 256 * 256 ^ length := Nat.pow_succ'
    rw [encode, decode, ih, hbyte, hpow, Nat.mod_mul]

@[simp] theorem encode_decode (bytes : List UInt8) : encode bytes.length
    (decode bytes) = bytes := by
  induction bytes with
  | nil => rfl
  | cons byte rest ih =>
    have hbyte : byte.toNat < 256 := byte.toNat_lt
    have hdiv : (byte.toNat + 256 * decode rest) / 256 = decode rest := by omega
    have hlow : UInt8.ofNat (byte.toNat + 256 * decode rest) = byte := by
      apply UInt8.toNat_inj.mp
      rw [UInt8.toNat_ofNat']
      omega
    rw [List.length_cons, encode, decode, hdiv, ih, hlow]

theorem decode_lt (bytes : List UInt8) : Bytes.decode bytes < 256 ^ bytes.length := by
  induction bytes with
  | nil => exact Nat.one_pos
  | cons byte rest ih =>
    have hbyte := byte.toNat_lt
    rw [Bytes.decode, List.length_cons, Nat.pow_succ]
    omega

/-- `bswap`: the bytes of a number of `length` bytes in reverse. -/
def swap (length number : Nat) : Nat := decode (encode length number).reverse

theorem encode_swap (length number : Nat) :
    encode length (swap length number) = (encode length number).reverse := by
  have hlength : (encode length number).reverse.length = length := by simp
  calc encode length (swap length number)
      = encode (encode length number).reverse.length (decode (encode length number).reverse) := by
        rw [hlength]
        rfl
    _ = (encode length number).reverse := encode_decode _

theorem swap_decode (bytes : List UInt8) : swap bytes.length (decode bytes) = decode bytes.reverse := by
  rw [swap, encode_decode]

end Libsax.Lib.Bytes
