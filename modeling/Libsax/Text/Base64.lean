import Libsax.Lib.Cells
import Libsax.Lib.Octet
import Mathlib.Tactic.IntervalCases

/-! Bytes as text of 64 characters, in groups of three bytes and four characters with
unpadded tails, and back. -/
namespace Libsax.Text.Base64

open Libsax.Lib

/-- `_t64`: the letters, the digits, a dash and a dot. -/
def alphabet : List UInt8 := [
  65, 66, 67, 68, 69, 70, 71, 72, 73, 74, 75, 76, 77, 78, 79, 80,
  81, 82, 83, 84, 85, 86, 87, 88, 89, 90, 97, 98, 99, 100, 101, 102,
  103, 104, 105, 106, 107, 108, 109, 110, 111, 112, 113, 114, 115, 116, 117, 118,
  119, 120, 121, 122, 48, 49, 50, 51, 52, 53, 54, 55, 56, 57, 45, 46]

/-- `_t256`, as far as the initializer lists it. -/
def t256Listed : List Int8 := [
  -1, -1, -1, -1, -1, -1, -1, -1, -1, -1, -1, -1, -1, -1, -1, -1,
  -1, -1, -1, -1, -1, -1, -1, -1, -1, -1, -1, -1, -1, -1, -1, -1,
  -1, -1, -1, -1, -1, -1, -1, -1, -1, -1, -1, -1, -1, 62, 63, -1,
  52, 53, 54, 55, 56, 57, 58, 59, 60, 61, -1, -1, -1, -1, -1, -1,
  -1, 0, 1, 2, 3, 4, 5, 6, 7, 8, 9, 10, 11, 12, 13, 14,
  15, 16, 17, 18, 19, 20, 21, 22, 23, 24, 25, -1, -1, -1, -1, -1,
  -1, 26, 27, 28, 29, 30, 31, 32, 33, 34, 35, 36, 37, 38, 39, 40,
  41, 42, 43, 44, 45, 46, 47, 48, 49, 50, 51, -1, -1, -1, -1, -1,
  -1, -1, -1, -1, -1, -1, -1, -1, -1, -1, -1, -1, -1, -1, -1, -1,
  -1, -1, -1, -1, -1, -1, -1, -1, -1, -1, -1, -1, -1, -1, -1, -1,
  -1, -1, -1, -1, -1, -1, -1, -1, -1, -1, -1, -1, -1, -1, -1, -1,
  -1, -1, -1, -1, -1, -1, -1, -1, -1, -1, -1, -1, -1, -1, -1, -1,
  -1, -1, -1, -1, -1, -1, -1, -1, -1, -1, -1, -1, -1, -1, -1, -1,
  -1, -1, -1, -1, -1, -1, -1, -1, -1, -1, -1, -1, -1, -1, -1, -1]

/-- The entries behind the listed ones are zero. -/
def t256 (char : UInt8) : Int8 := t256Listed.getD char.toNat 0

def t64 (index : UInt8) : UInt8 := alphabet.getD index.toNat 0

def quad (s0 s1 s2 : UInt8) : List UInt8 := [
  t64 (s0 >>> 2),
  t64 (((s0 &&& 0x03) <<< 4) ||| (s1 >>> 4)),
  t64 (((s1 &&& 0x0f) <<< 2) ||| (s2 >>> 6)),
  t64 (s2 &&& 0x3f)]

def triple (p0 p1 p2 p3 : UInt8) : List UInt8 := [
  (p0 <<< 2) ||| (p1 >>> 4),
  ((p1 <<< 4) &&& (0xf0 : UInt8)) ||| (p2 >>> 2),
  ((p2 <<< 6) &&& (0xc0 : UInt8)) ||| p3]

/-- `b64_encode` of a group: what it stores, as far as there is room, and what it returns. -/
def b64EncodeGroup (src : List UInt8) (dstLen : Nat) : List UInt8 × Nat :=
  let stored := (quad (src.getD 0 0) (src.getD 1 0) (src.getD 2 0)).take dstLen
  (stored, min stored.length (src.length + 1))

/-- The loop of `g_b64_encode`; `limit` is the position of `end`. Every round takes bytes,
so `fuel` is their number. -/
def encodeLoop : Nat → List UInt8 → Nat → Cells → Nat → Cells × Nat
  | 0, _, _, cells, dst => (cells, dst)
  | fuel + 1, src, limit, cells, dst =>
    if src ≠ [] ∧ dst < limit then
      let group := b64EncodeGroup (src.take 3) (limit - dst)
      encodeLoop fuel (src.drop 3) limit (cells.putAll dst group.1) (dst + group.2)
    else (cells, dst)

/-- `g_b64_encode` of the `src_len` bytes at `src`. -/
def gB64Encode (src : List UInt8) (dstLen : Int) : Cells × Nat :=
  let out := encodeLoop src.length src (dstLen - 1).toNat Cells.fresh 0
  (out.1.put out.2 0, out.2)

/-- `b64_decode` of a group; `none` is a character that is not allowed. -/
def b64DecodeGroup (src : List UInt8) (dstLen : Nat) : Option (List UInt8 × Nat) :=
  let s := src.map t256
  if -1 ∈ s then none
  else
    let p := fun k => (s.getD k 0).toUInt8
    let stored := (triple (p 0) (p 1) (p 2) (p 3)).take dstLen
    some (stored, min stored.length (if src.length = 4 then 3 else src.length))

/-- The loop of `g_b64_decode`, with the value that it returns. -/
def decodeLoop : Nat → List UInt8 → Nat → Cells → Nat → Cells × Int
  | 0, _, _, cells, j => (cells, j)
  | fuel + 1, src, limit, cells, j =>
    if src ≠ [] ∧ j < limit then
      match b64DecodeGroup (src.take 4) (limit - j) with
      | none => (cells, -1)
      | some (stored, ret) =>
        if ret = 0 then (cells.putAll j stored, -1)
        else decodeLoop fuel (src.drop 4) limit (cells.putAll j stored) (j + ret)
    else (cells, j)

/-- `g_b64_decode`; `src` is the memory from the pointer on. -/
def gB64Decode (src : List UInt8) (srcLen dstLen : Int) : Cells × Int :=
  let srcLen := if srcLen ≤ 0 then toInt (strlen src) else srcLen
  decodeLoop src.length (src.take srcLen.toNat) dstLen.toNat Cells.fresh 0

/-- The wrapper `b64_encode`; sizes are of 64 bits. -/
def b64Encode (src : List UInt8) : Filled :=
  let dstLen := (4 * src.length + 2) % 2 ^ 64 / 3 + 1
  let out := gB64Encode (src.take (toInt src.length).toNat) (toInt dstLen)
  ⟨dstLen, out.1, out.1.text out.2⟩

def b64Decode (url : List UInt8) (len : Nat) : Filled :=
  let siz := if len > 0 then len else strlen url
  let dstLen := (siz + 1) % 2 ^ 64
  let out := gB64Decode url (toInt siz) (toInt dstLen)
  ⟨dstLen, out.1, if out.2 > 0 then out.1.text out.2.toNat else some []⟩

@[simp] private theorem t256Listed_length : t256Listed.length = 224 := by decide +kernel

private theorem t256_t64 (index : UInt8) (hindex : index.toNat < 64) :
    t256 (t64 index) ≠ -1 ∧ (t256 (t64 index)).toUInt8 = index := by
  have hall : ∀ listed ∈ alphabet.zipIdx,
      t256 listed.1 ≠ -1 ∧ (t256 listed.1).toUInt8 = UInt8.ofNat listed.2 := by
    decide +kernel
  exact @Octet.forall_entry UInt8 alphabet 0
    (fun index char => t256 char ≠ -1 ∧ (t256 char).toUInt8 = index) hall index hindex

private theorem t64_ne_zero (index : UInt8) (hindex : index.toNat < 64) : t64 index ≠ 0 := by
  have hall : ∀ listed ∈ alphabet.zipIdx, listed.1 ≠ 0 := by decide +kernel
  exact @Octet.forall_entry UInt8 alphabet 0 (fun _ char => char ≠ 0) hall index hindex

theorem t256_ne_iff (char : UInt8) (hchar : char.toNat < 224) :
    t256 char ≠ -1 ↔ char ∈ alphabet := by
  have hall : ∀ listed ∈ t256Listed.zipIdx,
      listed.1 ≠ -1 ↔ UInt8.ofNat listed.2 ∈ alphabet := by
    decide +kernel
  have hlisted : char.toNat < t256Listed.length := by
    rw [t256Listed_length]
    exact hchar
  exact @Octet.forall_entry Int8 t256Listed 0 (fun char entry => entry ≠ -1 ↔ char ∈ alphabet)
    hall char hlisted

theorem t256_unlisted (char : UInt8) (hchar : 224 ≤ char.toNat) :
    t256 char = 0 ∧ char ∉ alphabet := by
  have hall : ∀ listed ∈ alphabet, listed.toNat < 224 := by decide +kernel
  have hbeyond : t256Listed[char.toNat]? = none := by
    rw [List.getElem?_eq_none_iff, t256Listed_length]
    exact hchar
  refine ⟨?_, fun hmem => absurd (hall char hmem) (Nat.not_lt.mpr hchar)⟩
  rw [t256, List.getD_eq_getElem?_getD, hbeyond, Option.getD_none]

private theorem moved_lt (byte mask : UInt8) (shift : Nat) (hshift : shift < 8)
    (hmask : mask.toNat * 2 ^ shift < 64) :
    ((byte &&& mask) <<< UInt8.ofNat shift).toNat < 2 ^ 6 := by
  have hand : (byte &&& mask).toNat ≤ mask.toNat := by
    rw [UInt8.toNat_and]
    exact Nat.and_le_right
  have hmul := Nat.mul_le_mul_right (2 ^ shift) hand
  have hof : (UInt8.ofNat shift).toNat % 8 = shift := by
    rw [UInt8.toNat_ofNat']
    omega
  rw [UInt8.toNat_shiftLeft, hof, Nat.shiftLeft_eq]
  exact Nat.lt_of_le_of_lt (Nat.mod_le _ _) (by omega)

private theorem shifted_lt (byte : UInt8) (shift : Nat) (hlow : 2 ≤ shift) (hshift : shift < 8) :
    (byte >>> UInt8.ofNat shift).toNat < 2 ^ 6 := by
  have hbyte := byte.toNat_lt
  have hof : (UInt8.ofNat shift).toNat % 8 = shift := by
    rw [UInt8.toNat_ofNat']
    omega
  have hpow : 2 ^ 2 ≤ 2 ^ shift := Nat.pow_le_pow_right (by decide) hlow
  rw [UInt8.toNat_shiftRight, hof, Nat.shiftRight_eq_div_pow, Nat.div_lt_iff_lt_mul (by omega)]
  omega

/-- The six-bit numbers of three bytes. -/
def sextets (s0 s1 s2 : UInt8) : List UInt8 := [
  s0 >>> 2,
  ((s0 &&& 0x03) <<< 4) ||| (s1 >>> 4),
  ((s1 &&& 0x0f) <<< 2) ||| (s2 >>> 6),
  s2 &&& 0x3f]

private theorem quad_eq (s0 s1 s2 : UInt8) : quad s0 s1 s2 = (sextets s0 s1 s2).map t64 := rfl

private theorem sextets_lt (s0 s1 s2 : UInt8) : ∀ p ∈ sextets s0 s1 s2, p.toNat < 64 := by
  have h0 : (s0 >>> 2).toNat < 64 := shifted_lt s0 2 (by decide) (by decide)
  have h1 : (((s0 &&& 0x03) <<< 4) ||| (s1 >>> 4)).toNat < 64 := by
    rw [UInt8.toNat_or]
    exact Nat.or_lt_two_pow (moved_lt s0 0x03 4 (by decide) (by decide))
      (shifted_lt s1 4 (by decide) (by decide))
  have h2 : (((s1 &&& 0x0f) <<< 2) ||| (s2 >>> 6)).toNat < 64 := by
    rw [UInt8.toNat_or]
    exact Nat.or_lt_two_pow (moved_lt s1 0x0f 2 (by decide) (by decide))
      (shifted_lt s2 6 (by decide) (by decide))
  have h3 : (s2 &&& 0x3f).toNat < 64 := by
    rw [UInt8.toNat_and]
    exact Nat.lt_of_le_of_lt Nat.and_le_right (by decide)
  intro p hp
  simp only [sextets, List.mem_cons, List.not_mem_nil, or_false] at hp
  rcases hp with rfl | rfl | rfl | rfl
  · exact h0
  · exact h1
  · exact h2
  · exact h3

private theorem triple_sextets (s0 s1 s2 : UInt8) :
    triple (s0 >>> 2) (((s0 &&& 0x03) <<< 4) ||| (s1 >>> 4))
      (((s1 &&& 0x0f) <<< 2) ||| (s2 >>> 6)) (s2 &&& 0x3f) = [s0, s1, s2] := by
  have h0 : ((s0 >>> 2) <<< 2) ||| ((((s0 &&& 0x03) <<< 4) ||| (s1 >>> 4)) >>> 4) = s0 := by
    apply UInt8.toBitVec_inj.mp
    apply BitVec.eq_of_getLsbD_eq
    intro i hi
    interval_cases i <;> simp
  have h1 : (((((s0 &&& 0x03) <<< 4) ||| (s1 >>> 4)) <<< 4) &&& (0xf0 : UInt8)) |||
      ((((s1 &&& 0x0f) <<< 2) ||| (s2 >>> 6)) >>> 2) = s1 := by
    apply UInt8.toBitVec_inj.mp
    apply BitVec.eq_of_getLsbD_eq
    intro i hi
    interval_cases i <;> simp
  have h2 : (((((s1 &&& 0x0f) <<< 2) ||| (s2 >>> 6)) <<< 6) &&& (0xc0 : UInt8)) |||
      (s2 &&& 0x3f) = s2 := by
    apply UInt8.toBitVec_inj.mp
    apply BitVec.eq_of_getLsbD_eq
    intro i hi
    interval_cases i <;> simp
  rw [triple, h0, h1, h2]

/-- The text of a string, in groups of three bytes with a short last one. -/
def encoded : List UInt8 → List UInt8
  | s0 :: s1 :: s2 :: rest => quad s0 s1 s2 ++ encoded rest
  | [s0, s1] => (quad s0 s1 0).take 3
  | [s0] => (quad s0 0 0).take 2
  | [] => []

/-- The bytes of a group of characters; all of its characters are checked. -/
def bytesOf (group : List UInt8) : Option (List UInt8) :=
  if -1 ∈ group.map t256 then none
  else
    let p := fun k => ((group.map t256).getD k 0).toUInt8
    some ((triple (p 0) (p 1) (p 2) (p 3)).take (if group.length = 4 then 3 else group.length))

/-- The bytes of a text, in groups of four characters with a short last one. -/
def decoded : List UInt8 → Option (List UInt8)
  | c0 :: c1 :: c2 :: c3 :: rest =>
    (bytesOf [c0, c1, c2, c3]).bind fun front => (decoded rest).map (front ++ ·)
  | [] => some []
  | tail => bytesOf tail

/-- The number of bytes of a text of this length. -/
def decodedLen (len : Nat) : Nat := len / 4 * 3 + len % 4

theorem encoded_step {src : List UInt8} (hsrc : src ≠ []) : encoded src =
    (quad ((src.take 3).getD 0 0) ((src.take 3).getD 1 0) ((src.take 3).getD 2 0)).take
      ((src.take 3).length + 1) ++ encoded (src.drop 3) := by
  rcases src with _ | ⟨s0, _ | ⟨s1, _ | ⟨s2, rest⟩⟩⟩
  · exact absurd rfl hsrc
  · rfl
  · rfl
  · rfl

theorem decoded_step {src : List UInt8} (hsrc : src ≠ []) : decoded src =
    (bytesOf (src.take 4)).bind fun front => (decoded (src.drop 4)).map (front ++ ·) := by
  have htail : ∀ tail, bytesOf tail =
      (bytesOf tail).bind fun front => (some []).map (front ++ ·) := by
    intro tail
    simp
  rcases src with _ | ⟨c0, _ | ⟨c1, _ | ⟨c2, _ | ⟨c3, rest⟩⟩⟩⟩
  · exact absurd rfl hsrc
  · exact htail [c0]
  · exact htail [c0, c1]
  · exact htail [c0, c1, c2]
  · rfl

@[simp] theorem encoded_length (src : List UInt8) : (encoded src).length =
    (4 * src.length + 2) / 3 := by
  fun_induction encoded src with
  | case1 s0 s1 s2 rest ih =>
    rw [List.length_append, ih]
    simp only [quad, List.length_cons, List.length_nil]
    omega
  | case2 s0 s1 => simp [quad]
  | case3 s0 => simp [quad]
  | case4 => rfl

private theorem bytesOf_map_t64 {p : List UInt8} (hp : ∀ index ∈ p, index.toNat < 64) :
    bytesOf (p.map t64) = some ((triple (p.getD 0 0) (p.getD 1 0) (p.getD 2 0)
      (p.getD 3 0)).take (if p.length = 4 then 3 else p.length)) := by
  have hallowed : -1 ∉ (p.map t64).map t256 := by
    rw [List.map_map, List.mem_map]
    rintro ⟨index, hindex, hback⟩
    exact (t256_t64 index (hp index hindex)).1 hback
  have hentry : ∀ k, (((p.map t64).map t256).getD k 0).toUInt8 = p.getD k 0 := by
    intro k
    rw [List.map_map, List.getD_eq_getElem?_getD, List.getD_eq_getElem?_getD, List.getElem?_map]
    cases hk : p[k]? with
    | none => rfl
    | some index => exact (t256_t64 index (hp index (List.mem_of_getElem? hk))).2
  rw [bytesOf, if_neg hallowed, List.length_map]
  simp only [hentry]

theorem decoded_encoded (src : List UInt8) :
    decoded (encoded src) = some (src ++ if src.length % 3 = 0 then [] else [0]) := by
  fun_induction encoded src with
  | case1 s0 s1 s2 rest ih =>
    have hgroup : bytesOf (quad s0 s1 s2) = some [s0, s1, s2] := by
      rw [quad_eq, bytesOf_map_t64 (sextets_lt s0 s1 s2)]
      exact congrArg some (congrArg (List.take 3) (triple_sextets s0 s1 s2))
    have hlength : (s0 :: s1 :: s2 :: rest).length % 3 = rest.length % 3 := by
      simp only [List.length_cons]
      omega
    have hsplit : decoded (quad s0 s1 s2 ++ encoded rest) =
        (bytesOf (quad s0 s1 s2)).bind fun front =>
          (decoded (encoded rest)).map (front ++ ·) := rfl
    rw [hsplit, hgroup, ih, hlength]
    rfl
  | case2 s0 s1 =>
    have htake : (quad s0 s1 0).take 3 = ((sextets s0 s1 0).take 3).map t64 := rfl
    have hlt : ∀ p ∈ (sextets s0 s1 0).take 3, p.toNat < 64 := fun p hp =>
      sextets_lt s0 s1 0 p (List.mem_of_mem_take hp)
    rw [htake]
    exact (bytesOf_map_t64 hlt).trans
      (congrArg some (congrArg (List.take 3) (triple_sextets s0 s1 0)))
  | case3 s0 =>
    have htake : (quad s0 0 0).take 2 = ((sextets s0 0 0).take 2).map t64 := rfl
    have hlt : ∀ p ∈ (sextets s0 0 0).take 2, p.toNat < 64 := fun p hp =>
      sextets_lt s0 0 0 p (List.mem_of_mem_take hp)
    rw [htake]
    exact (bytesOf_map_t64 hlt).trans
      (congrArg some (congrArg (List.take 2) (triple_sextets s0 0 0)))
  | case4 => rfl

theorem encoded_ne_zero (src : List UInt8) : ∀ char ∈ encoded src, char ≠ 0 := by
  have hquad : ∀ s0 s1 s2, ∀ char ∈ quad s0 s1 s2, char ≠ 0 := by
    intro s0 s1 s2 char hchar
    obtain ⟨index, hindex, rfl⟩ := List.mem_map.mp (quad_eq s0 s1 s2 ▸ hchar)
    exact t64_ne_zero index (sextets_lt s0 s1 s2 index hindex)
  fun_induction encoded src with
  | case1 s0 s1 s2 rest ih =>
    intro char hchar
    rcases List.mem_append.mp hchar with hfront | hback
    · exact hquad s0 s1 s2 char hfront
    · exact ih char hback
  | case2 s0 s1 => exact fun char hchar => hquad s0 s1 0 char (List.mem_of_mem_take hchar)
  | case3 s0 => exact fun char hchar => hquad s0 0 0 char (List.mem_of_mem_take hchar)
  | case4 => exact fun char hchar => absurd hchar List.not_mem_nil

end Libsax.Text.Base64
