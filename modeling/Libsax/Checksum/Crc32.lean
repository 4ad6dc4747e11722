import Libsax.Lib.Octet
import Mathlib.Algebra.Ring.Nat

/-! CRC-32 by tables, forwards and backwards, over strings and over a file in chunks. -/
namespace Libsax.Checksum

open Libsax.Lib.Octet

def crc32IeeeLeTable : List UInt32 := [
  0x00000000, 0x77073096, 0xEE0E612C, 0x990951BA, 0x076DC419, 0x706AF48F, 0xE963A535, 0x9E6495A3,
  0x0EDB8832, 0x79DCB8A4, 0xE0D5E91E, 0x97D2D988, 0x09B64C2B, 0x7EB17CBD, 0xE7B82D07, 0x90BF1D91,
  0x1DB71064, 0x6AB020F2, 0xF3B97148, 0x84BE41DE, 0x1ADAD47D, 0x6DDDE4EB, 0xF4D4B551, 0x83D385C7,
  0x136C9856, 0x646BA8C0, 0xFD62F97A, 0x8A65C9EC, 0x14015C4F, 0x63066CD9, 0xFA0F3D63, 0x8D080DF5,
  0x3B6E20C8, 0x4C69105E, 0xD56041E4, 0xA2677172, 0x3C03E4D1, 0x4B04D447, 0xD20D85FD, 0xA50AB56B,
  0x35B5A8FA, 0x42B2986C, 0xDBBBC9D6, 0xACBCF940, 0x32D86CE3, 0x45DF5C75, 0xDCD60DCF, 0xABD13D59,
  0x26D930AC, 0x51DE003A, 0xC8D75180, 0xBFD06116, 0x21B4F4B5, 0x56B3C423, 0xCFBA9599, 0xB8BDA50F,
  0x2802B89E, 0x5F058808, 0xC60CD9B2, 0xB10BE924, 0x2F6F7C87, 0x58684C11, 0xC1611DAB, 0xB6662D3D,
  0x76DC4190, 0x01DB7106, 0x98D220BC, 0xEFD5102A, 0x71B18589, 0x06B6B51F, 0x9FBFE4A5, 0xE8B8D433,
  0x7807C9A2, 0x0F00F934, 0x9609A88E, 0xE10E9818, 0x7F6A0DBB, 0x086D3D2D, 0x91646C97, 0xE6635C01,
  0x6B6B51F4, 0x1C6C6162, 0x856530D8, 0xF262004E, 0x6C0695ED, 0x1B01A57B, 0x8208F4C1, 0xF50FC457,
  0x65B0D9C6, 0x12B7E950, 0x8BBEB8EA, 0xFCB9887C, 0x62DD1DDF, 0x15DA2D49, 0x8CD37CF3, 0xFBD44C65,
  0x4DB26158, 0x3AB551CE, 0xA3BC0074, 0xD4BB30E2, 0x4ADFA541, 0x3DD895D7, 0xA4D1C46D, 0xD3D6F4FB,
  0x4369E96A, 0x346ED9FC, 0xAD678846, 0xDA60B8D0, 0x44042D73, 0x33031DE5, 0xAA0A4C5F, 0xDD0D7CC9,
  0x5005713C, 0x270241AA, 0xBE0B1010, 0xC90C2086, 0x5768B525, 0x206F85B3, 0xB966D409, 0xCE61E49F,
  0x5EDEF90E, 0x29D9C998, 0xB0D09822, 0xC7D7A8B4, 0x59B33D17, 0x2EB40D81, 0xB7BD5C3B, 0xC0BA6CAD,
  0xEDB88320, 0x9ABFB3B6, 0x03B6E20C, 0x74B1D29A, 0xEAD54739, 0x9DD277AF, 0x04DB2615, 0x73DC1683,
  0xE3630B12, 0x94643B84, 0x0D6D6A3E, 0x7A6A5AA8, 0xE40ECF0B, 0x9309FF9D, 0x0A00AE27, 0x7D079EB1,
  0xF00F9344, 0x8708A3D2, 0x1E01F268, 0x6906C2FE, 0xF762575D, 0x806567CB, 0x196C3671, 0x6E6B06E7,
  0xFED41B76, 0x89D32BE0, 0x10DA7A5A, 0x67DD4ACC, 0xF9B9DF6F, 0x8EBEEFF9, 0x17B7BE43, 0x60B08ED5,
  0xD6D6A3E8, 0xA1D1937E, 0x38D8C2C4, 0x4FDFF252, 0xD1BB67F1, 0xA6BC5767, 0x3FB506DD, 0x48B2364B,
  0xD80D2BDA, 0xAF0A1B4C, 0x36034AF6, 0x41047A60, 0xDF60EFC3, 0xA867DF55, 0x316E8EEF, 0x4669BE79,
  0xCB61B38C, 0xBC66831A, 0x256FD2A0, 0x5268E236, 0xCC0C7795, 0xBB0B4703, 0x220216B9, 0x5505262F,
  0xC5BA3BBE, 0xB2BD0B28, 0x2BB45A92, 0x5CB36A04, 0xC2D7FFA7, 0xB5D0CF31, 0x2CD99E8B, 0x5BDEAE1D,
  0x9B64C2B0, 0xEC63F226, 0x756AA39C, 0x026D930A, 0x9C0906A9, 0xEB0E363F, 0x72076785, 0x05005713,
  0x95BF4A82, 0xE2B87A14, 0x7BB12BAE, 0x0CB61B38, 0x92D28E9B, 0xE5D5BE0D, 0x7CDCEFB7, 0x0BDBDF21,
  0x86D3D2D4, 0xF1D4E242, 0x68DDB3F8, 0x1FDA836E, 0x81BE16CD, 0xF6B9265B, 0x6FB077E1, 0x18B74777,
  0x88085AE6, 0xFF0F6A70, 0x66063BCA, 0x11010B5C, 0x8F659EFF, 0xF862AE69, 0x616BFFD3, 0x166CCF45,
  0xA00AE278, 0xD70DD2EE, 0x4E048354, 0x3903B3C2, 0xA7672661, 0xD06016F7, 0x4969474D, 0x3E6E77DB,
  0xAED16A4A, 0xD9D65ADC, 0x40DF0B66, 0x37D83BF0, 0xA9BCAE53, 0xDEBB9EC5, 0x47B2CF7F, 0x30B5FFE9,
  0xBDBDF21C, 0xCABAC28A, 0x53B39330, 0x24B4A3A6, 0xBAD03605, 0xCDD70693, 0x54DE5729, 0x23D967BF,
  0xB3667A2E, 0xC4614AB8, 0x5D681B02, 0x2A6F2B94, 0xB40BBE37, 0xC30C8EA1, 0x5A05DF1B, 0x2D02EF8D]

def crc32IeeeLeRevTable : List UInt8 := [
  0x00, 0x41, 0xc3, 0x82, 0x86, 0xc7, 0x45, 0x04, 0x4d, 0x0c, 0x8e, 0xcf, 0xcb, 0x8a, 0x08, 0x49,
  0x9a, 0xdb, 0x59, 0x18, 0x1c, 0x5d, 0xdf, 0x9e, 0xd7, 0x96, 0x14, 0x55, 0x51, 0x10, 0x92, 0xd3,
  0x75, 0x34, 0xb6, 0xf7, 0xf3, 0xb2, 0x30, 0x71, 0x38, 0x79, 0xfb, 0xba, 0xbe, 0xff, 0x7d, 0x3c,
  0xef, 0xae, 0x2c, 0x6d, 0x69, 0x28, 0xaa, 0xeb, 0xa2, 0xe3, 0x61, 0x20, 0x24, 0x65, 0xe7, 0xa6,
  0xea, 0xab, 0x29, 0x68, 0x6c, 0x2d, 0xaf, 0xee, 0xa7, 0xe6, 0x64, 0x25, 0x21, 0x60, 0xe2, 0xa3,
  0x70, 0x31, 0xb3, 0xf2, 0xf6, 0xb7, 0x35, 0x74, 0x3d, 0x7c, 0xfe, 0xbf, 0xbb, 0xfa, 0x78, 0x39,
  0x9f, 0xde, 0x5c, 0x1d, 0x19, 0x58, 0xda, 0x9b, 0xd2, 0x93, 0x11, 0x50, 0x54, 0x15, 0x97, 0xd6,
  0x05, 0x44, 0xc6, 0x87, 0x83, 0xc2, 0x40, 0x01, 0x48, 0x09, 0x8b, 0xca, 0xce, 0x8f, 0x0d, 0x4c,
  0x95, 0xd4, 0x56, 0x17, 0x13, 0x52, 0xd0, 0x91, 0xd8, 0x99, 0x1b, 0x5a, 0x5e, 0x1f, 0x9d, 0xdc,
  0x0f, 0x4e, 0xcc, 0x8d, 0x89, 0xc8, 0x4a, 0x0b, 0x42, 0x03, 0x81, 0xc0, 0xc4, 0x85, 0x07, 0x46,
  0xe0, 0xa1, 0x23, 0x62, 0x66, 0x27, 0xa5, 0xe4, 0xad, 0xec, 0x6e, 0x2f, 0x2b, 0x6a, 0xe8, 0xa9,
  0x7a, 0x3b, 0xb9, 0xf8, 0xfc, 0xbd, 0x3f, 0x7e, 0x37, 0x76, 0xf4, 0xb5, 0xb1, 0xf0, 0x72, 0x33,
  0x7f, 0x3e, 0xbc, 0xfd, 0xf9, 0xb8, 0x3a, 0x7b, 0x32, 0x73, 0xf1, 0xb0, 0xb4, 0xf5, 0x77, 0x36,
  0xe5, 0xa4, 0x26, 0x67, 0x63, 0x22, 0xa0, 0xe1, 0xa8, 0xe9, 0x6b, 0x2a, 0x2e, 0x6f, 0xed, 0xac,
  0x0a, 0x4b, 0xc9, 0x88, 0x8c, 0xcd, 0x4f, 0x0e, 0x47, 0x06, 0x84, 0xc5, 0xc1, 0x80, 0x02, 0x43,
  0x90, 0xd1, 0x53, 0x12, 0x16, 0x57, 0xd5, 0x94, 0xdd, 0x9c, 0x1e, 0x5f, 0x5b, 0x1a, 0x98, 0xd9]

def entry (table : List UInt32) (index : UInt8) : UInt32 := table.getD index.toNat 0

def revEntry (index : UInt8) : UInt8 := crc32IeeeLeRevTable.getD index.toNat 0

def crcRound (table : List UInt32) (code : UInt32) (byte : UInt8) : UInt32 :=
  entry table (code.toUInt8 ^^^ byte) ^^^ (code >>> 8)

def crcFunc (table : List UInt32) (start : UInt32) (buf : List UInt8) : UInt32 :=
  buf.foldl (crcRound table) start

def crc32IeeeLe : UInt32 → List UInt8 → UInt32 := crcFunc crc32IeeeLeTable

def revRound (byte : UInt8) (code : UInt32) : UInt32 :=
  let i := revEntry (code >>> 24).toUInt8
  ((entry crc32IeeeLeTable i ^^^ code) <<< 8) ||| (i ^^^ byte).toUInt32

/-- `crc32_ieee_le_rev`, which takes the bytes from the end. -/
def crc32IeeeLeRev (e : UInt32) (buf : List UInt8) : UInt32 := buf.foldr revRound e

/-- The bytes that `uint32_t len = src.length()` covers. -/
def counted (src : List UInt8) : List UInt8 := src.take (src.length % 2 ^ 32)

def crc32 (src : List UInt8) (start : UInt32) : UInt32 :=
  crc32IeeeLe (start ^^^ 0xFFffFFff) (counted src) ^^^ 0xFFffFFff

def crc32Rev (e : UInt32) (src : List UInt8) : UInt32 :=
  crc32IeeeLeRev (e ^^^ 0xFFffFFff) (counted src) ^^^ 0xFFffFFff

def f64read (file : List UInt8) (amt offset : Nat) : List UInt8 := (file.drop offset).take amt

/-- The loop over the chunks. Every round but the last moves the offset on. -/
def crcChunks (file : List UInt8) : Nat → UInt32 → Nat → UInt32
  | 0, code, _ => code
  | fuel + 1, code, offset =>
    let tmp := f64read file 4096 offset
    if tmp.length = 0 then code
    else if tmp.length ≠ 4096 then crc32IeeeLe code tmp
    else crcChunks file fuel (crc32IeeeLe code tmp) (offset + tmp.length)

def crc32File (file : List UInt8) : UInt32 :=
  crcChunks file (file.length + 1) 0xFFffFFff 0 ^^^ 0xFFffFFff

@[simp] private theorem crc32IeeeLeTable_length : crc32IeeeLeTable.length = 256 := by decide +kernel

@[simp] private theorem crc32IeeeLeRevTable_length :
    crc32IeeeLeRevTable.length = 256 := by decide +kernel

private theorem revEntry_top (index : UInt8) :
    revEntry (entry crc32IeeeLeTable index >>> 24).toUInt8 = index := by
  have hall : ∀ listed ∈ crc32IeeeLeTable.zipIdx,
      revEntry (listed.1 >>> 24).toUInt8 = UInt8.ofNat listed.2 := by
    decide +kernel
  have hindex : index.toNat < crc32IeeeLeTable.length := by
    rw [crc32IeeeLeTable_length]
    exact index.toNat_lt
  exact @forall_entry UInt32 crc32IeeeLeTable 0
    (fun index word => revEntry (word >>> 24).toUInt8 = index) hall index hindex

private theorem entry_revEntry_top (index : UInt8) :
    entry crc32IeeeLeTable (revEntry index) >>> 24 = index.toUInt32 := by
  have hall : ∀ listed ∈ crc32IeeeLeRevTable.zipIdx,
      entry crc32IeeeLeTable listed.1 >>> 24 = (UInt8.ofNat listed.2).toUInt32 := by
    decide +kernel
  have hindex : index.toNat < crc32IeeeLeRevTable.length := by
    rw [crc32IeeeLeRevTable_length]
    exact index.toNat_lt
  exact @forall_entry UInt8 crc32IeeeLeRevTable 0
    (fun index listed => entry crc32IeeeLeTable listed >>> 24 = index.toUInt32) hall index hindex

variable (code : UInt32) (byte : UInt8)

private theorem top_toUInt32 : (code >>> 24).toUInt8.toUInt32 = code >>> 24 := by
  apply UInt32.toNat_inj.mp
  have hcode := code.toNat_lt
  have htop : (code >>> 24).toNat = code.toNat / 2 ^ 24 := by
    rw [UInt32.toNat_shiftRight]
    exact Nat.shiftRight_eq_div_pow _ 24
  rw [UInt8.toNat_toUInt32, UInt32.toNat_toUInt8, htop]
  omega

@[simp] private theorem revRound_crcRound : revRound byte
    (crcRound crc32IeeeLeTable code byte) = code := by
  have hindex : revEntry (crcRound crc32IeeeLeTable code byte >>> 24).toUInt8 =
      code.toUInt8 ^^^ byte := by
    rw [crcRound, xor_shiftRight_top, revEntry_top]
  rw [revRound, hindex, crcRound, xor_cancel_left, xor_cancel_right, shift_or_low]

@[simp] private theorem crcRound_revRound : crcRound crc32IeeeLeTable
    (revRound byte code) byte = code := by
  have htop : (entry crc32IeeeLeTable (revEntry (code >>> 24).toUInt8) ^^^ code) >>> 24 = 0 := by
    rw [UInt32.shiftRight_xor, entry_revEntry_top, top_toUInt32, UInt32.xor_self]
  rw [crcRound, revRound, low_shift_or, shift_or_shiftRight _ _ htop, xor_cancel_right,
    xor_cancel_left]

private theorem crcRound_injective {byte other : UInt8}
    (hsame : crcRound crc32IeeeLeTable code byte = crcRound crc32IeeeLeTable code other) :
    byte = other := by
  have hentry : entry crc32IeeeLeTable (code.toUInt8 ^^^ byte) =
      entry crc32IeeeLeTable (code.toUInt8 ^^^ other) := by
    simpa [crcRound] using congrArg (· ^^^ (code >>> 8)) hsame
  have hindex : code.toUInt8 ^^^ byte = code.toUInt8 ^^^ other := by
    rw [← revEntry_top (code.toUInt8 ^^^ byte), hentry, revEntry_top]
  rw [← xor_cancel_left code.toUInt8 byte, hindex, xor_cancel_left]

@[simp] private theorem crc32IeeeLeRev_crc32IeeeLe (buf : List UInt8) :
    crc32IeeeLeRev (crc32IeeeLe code buf) buf = code := by
  induction buf generalizing code with
  | nil => rfl
  | cons byte buf ih =>
    change revRound byte (crc32IeeeLeRev
      (crc32IeeeLe (crcRound crc32IeeeLeTable code byte) buf) buf) = code
    rw [ih, revRound_crcRound]

@[simp] private theorem crc32IeeeLe_crc32IeeeLeRev (buf : List UInt8) :
    crc32IeeeLe (crc32IeeeLeRev code buf) buf = code := by
  induction buf with
  | nil => rfl
  | cons byte buf ih =>
    change crc32IeeeLe (crcRound crc32IeeeLeTable
      (revRound byte (crc32IeeeLeRev code buf)) byte) buf = code
    rw [crcRound_revRound, ih]

/-- The end value gives back the start value, and the start value the end value. -/
theorem crc32_reversible (s : List UInt8) (c : UInt32) :
    crc32Rev (crc32 s c) s = c ∧ crc32 s (crc32Rev c s) = c := by
  constructor
  · rw [crc32Rev, crc32, xor_cancel_right, crc32IeeeLeRev_crc32IeeeLe,
      xor_cancel_right]
  · rw [crc32Rev, crc32, xor_cancel_right, crc32IeeeLe_crc32IeeeLeRev,
      xor_cancel_right]

private theorem crc32IeeeLe_append (front back : List UInt8) :
    crc32IeeeLe code (front ++ back) = crc32IeeeLe (crc32IeeeLe code front) back :=
  List.foldl_append

private theorem crc32_crc32 (front back : List UInt8) : crc32 back (crc32 front code) =
    crc32IeeeLe (code ^^^ 0xFFffFFff) (counted front ++ counted back) ^^^ 0xFFffFFff := by
  rw [crc32, crc32, xor_cancel_right, crc32IeeeLe_append]

private theorem crc32IeeeLe_last_ne (front : List UInt8) :
    crc32IeeeLe code (front ++ [0]) ≠ crc32IeeeLe code (front ++ [1]) := by
  intro hsame
  rw [crc32IeeeLe_append, crc32IeeeLe_append] at hsame
  exact absurd (crcRound_injective _ hsame) (by decide)

private theorem crcChunks_spec (file : List UInt8) {fuel offset : Nat}
    (hfuel : (file.drop offset).length < fuel) :
    crcChunks file fuel code offset = crc32IeeeLe code (file.drop offset) := by
  induction fuel generalizing code offset with
  | zero => exact absurd hfuel (Nat.not_lt_zero _)
  | succ fuel ih =>
    rw [crcChunks, f64read]
    split_ifs with hnone hshort
    · rw [List.length_take] at hnone
      have hempty : file.drop offset = [] := List.eq_nil_of_length_eq_zero (by omega)
      rw [hempty]
      rfl
    · rw [List.length_take] at hshort
      rw [List.take_of_length_le (by omega)]
    · rw [List.length_take] at hnone hshort
      have hmoved : (file.drop (offset + 4096)).length < fuel := by
        rw [List.length_drop] at hfuel hshort hnone ⊢
        omega
      have hchunk : ((file.drop offset).take 4096).length = 4096 := by
        rw [List.length_take]
        omega
      rw [hchunk, ih _ hmoved, ← crc32IeeeLe_append, ← List.drop_drop, List.take_append_drop]

private theorem crc32File_eq (file : List UInt8) :
    crc32File file = crc32IeeeLe 0xFFffFFff file ^^^ 0xFFffFFff := by
  have hfuel : (file.drop 0).length < file.length + 1 := Nat.lt_succ_self _
  rw [crc32File, crcChunks_spec _ _ hfuel, List.drop_zero]

private theorem counted_of_length (front back : List UInt8)
    (hfront : front.length = (front ++ back).length % 2 ^ 32) :
    counted (front ++ back) = front := by
  rw [counted, ← hfront, List.take_left]

private theorem counted_append {a b : List UInt8}
    (hfits : b.length % 2 ^ 32 = 0 ∨ a.length + b.length % 2 ^ 32 < 2 ^ 32) :
    counted (a ++ b) = counted a ++ counted b := by
  rw [counted, counted, counted, List.length_append]
  cases hfits with
  | inl hwhole =>
    have hlength : (a.length + b.length) % 2 ^ 32 = a.length % 2 ^ 32 := by omega
    have hle : a.length % 2 ^ 32 ≤ a.length := Nat.mod_le _ _
    rw [hlength, hwhole, List.take_zero, List.append_nil, List.take_append_of_le_length hle]
  | inr hsmall =>
    have hlength : (a.length + b.length) % 2 ^ 32 = a.length + b.length % 2 ^ 32 := by omega
    have hleft : a.length % 2 ^ 32 = a.length := Nat.mod_eq_of_lt (by omega)
    rw [hlength, hleft, List.take_length_add_append, List.take_length]

/-- Otherwise no byte of the second part is counted in the concatenation, while some are
counted alone. -/
private theorem counted_append_lost {a b : List UInt8}
    (hlost : 2 ^ 32 ≤ a.length + b.length % 2 ^ 32) :
    counted (a ++ b) = a.take ((a.length + b.length) % 2 ^ 32) := by
  have hle : (a.length + b.length) % 2 ^ 32 ≤ a.length := by omega
  rw [counted, List.length_append, List.take_append_of_le_length hle]

/-- A part whose length leaves a remainder, with its last counted byte open. -/
def lastCounted (n : Nat) (byte : UInt8) : List UInt8 :=
  (List.replicate (n % 2 ^ 32 - 1) 0 ++ [byte]) ++ List.replicate (n - n % 2 ^ 32) 0

private theorem lastCounted_length {n : Nat} (hpart : n % 2 ^ 32 ≠ 0) (byte : UInt8) :
    (lastCounted n byte).length = n := by
  rw [lastCounted, List.length_append, List.length_append, List.length_replicate,
    List.length_replicate, List.length_singleton]
  omega

private theorem counted_lastCounted {n : Nat} (hpart : n % 2 ^ 32 ≠ 0) (byte : UInt8) :
    counted (lastCounted n byte) = List.replicate (n % 2 ^ 32 - 1) 0 ++ [byte] := by
  apply counted_of_length
  change _ = (lastCounted n byte).length % 2 ^ 32
  rw [lastCounted_length hpart, List.length_append, List.length_replicate,
    List.length_singleton]
  omega

private theorem not_composes {m n : Nat} (hpart : n % 2 ^ 32 ≠ 0)
    (hlost : 2 ^ 32 ≤ m + n % 2 ^ 32) :
    ¬ ∀ a b : List UInt8, a.length = m → b.length = n →
      ∀ c, crc32 (a ++ b) c = crc32 b (crc32 a c) := by
  intro hcompose
  have hzeros : (List.replicate m (0 : UInt8)).length = m := List.length_replicate
  have hwhole : ∀ byte, crc32 (List.replicate m 0 ++ lastCounted n byte) 0 =
      crc32IeeeLe 0xFFffFFff ((List.replicate m 0).take ((m + n) % 2 ^ 32)) ^^^ 0xFFffFFff := by
    intro byte
    have hlength := lastCounted_length hpart byte
    rw [crc32, counted_append_lost (by rw [hzeros, hlength]; exact hlost), hzeros, hlength]
    rfl
  have hparts : ∀ byte,
      crc32 (lastCounted n byte) (crc32 (List.replicate m 0) 0) =
        crc32IeeeLe 0xFFffFFff ((counted (List.replicate m 0) ++
          List.replicate (n % 2 ^ 32 - 1) 0) ++ [byte]) ^^^ 0xFFffFFff := by
    intro byte
    rw [crc32_crc32, counted_lastCounted hpart, List.append_assoc]
    rfl
  have hsame : ∀ byte, crc32 (List.replicate m 0 ++ lastCounted n byte) 0 =
      crc32 (lastCounted n byte) (crc32 (List.replicate m 0) 0) := fun byte =>
    hcompose _ _ hzeros (lastCounted_length hpart byte) 0
  have hclash := (hsame 0).symm.trans ((hwhole 0).trans ((hwhole 1).symm.trans (hsame 1)))
  rw [hparts, hparts] at hclash
  exact crc32IeeeLe_last_ne _ _ ((xor_left_involutive _).injective hclash)

theorem not_agrees {m : Nat} (hlong : 2 ^ 32 ≤ m) :
    ¬ ∀ file : List UInt8, file.length = m → crc32File file = crc32 file 0 := by
  intro hagree
  have hlength : ∀ byte : UInt8, (List.replicate (m - 1) 0 ++ [byte]).length = m := by
    intro byte
    rw [List.length_append, List.length_replicate, List.length_singleton]
    omega
  have hstring : ∀ byte : UInt8, crc32 (List.replicate (m - 1) 0 ++ [byte]) 0 =
      crc32IeeeLe 0xFFffFFff ((List.replicate (m - 1) 0).take (m % 2 ^ 32)) ^^^ 0xFFffFFff := by
    intro byte
    have hle : m % 2 ^ 32 ≤ (List.replicate (m - 1) (0 : UInt8)).length := by
      rw [List.length_replicate]
      omega
    rw [crc32, counted, hlength, List.take_append_of_le_length hle]
    rfl
  have hclash := (hagree _ (hlength 0)).trans
    ((hstring 0).trans ((hstring 1).symm.trans (hagree _ (hlength 1)).symm))
  rw [crc32File_eq, crc32File_eq] at hclash
  exact crc32IeeeLe_last_ne _ _ ((xor_left_involutive _).injective hclash)

/-- Strings of two lengths compose exactly when nothing of the second is counted or the
first and what is counted of the second fit in 32 bits together; files of a length agree
with their content as a string exactly when the length fits. -/
theorem crc32_composes_iff (m n : Nat) :
    ((∀ a b : List UInt8, a.length = m → b.length = n →
        ∀ c, crc32 (a ++ b) c = crc32 b (crc32 a c)) ↔
      n % 2 ^ 32 = 0 ∨ m + n % 2 ^ 32 < 2 ^ 32) ∧
    ((∀ file : List UInt8, file.length = m → crc32File file = crc32 file 0) ↔
      m < 2 ^ 32) := by
  constructor
  · constructor
    · intro hcompose
      by_contra hnot
      obtain ⟨hpart, hlost⟩ := not_or.mp hnot
      exact not_composes hpart (Nat.le_of_not_lt hlost) hcompose
    · intro hfits a b ha hb c
      rw [crc32_crc32, crc32, counted_append (by rw [ha, hb]; exact hfits)]
  · constructor
    · intro hagree
      by_contra hlong
      exact not_agrees (Nat.le_of_not_lt hlong) hagree
    · intro hsmall file hfile
      have hall : counted file = file := by
        rw [counted, hfile, Nat.mod_eq_of_lt hsmall, ← hfile, List.take_length]
      rw [crc32File_eq, crc32, hall]
      rfl

/-- A first part of 2^32 bytes: of the whole one byte is counted, and it is not the one
that is counted of the second part alone. -/
theorem crc32_long_differs :
    crc32 (List.replicate (2 ^ 32) 0 ++ [1]) 0 ≠
      crc32 [1] (crc32 (List.replicate (2 ^ 32) 0) 0) := by
  have hwhole : counted (List.replicate (2 ^ 32) 0 ++ [1]) = [0] := by
    rw [counted_append_lost (by rw [List.length_replicate]; decide), List.length_replicate,
      List.take_replicate]
    rfl
  have hnone : counted (List.replicate (2 ^ 32) 0) = [] := by
    rw [counted, List.length_replicate, Nat.mod_self, List.take_zero]
  rw [crc32_crc32, crc32, hwhole, hnone]
  decide

end Libsax.Checksum
