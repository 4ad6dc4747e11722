import Mathlib.Algebra.Ring.Nat
import Mathlib.Tactic.Linarith

/-! `calc_adler32`: two sums over the bytes, reduced modulo `BASE` only when the second
one has grown large. -/
namespace Libsax.Checksum

/-- `BASE`, largest prime smaller than 65536 -/
def base : UInt32 := 65521

def wraps (a b : UInt32) : Bool := decide (2 ^ 32 ≤ a.toNat + b.toNat)

/-- `s1` and `s2`, and a record that the code does not keep: whether an addition wrapped. -/
structure Sums where
  s1 : UInt32
  s2 : UInt32
  wrapped : Bool

def do1 (s : Sums) (byte : UInt8) : Sums :=
  let s1 := s.s1 + byte.toUInt32
  let s2 := s.s2 + s1
  ⟨s1, s2, s.wrapped || wraps s.s1 byte.toUInt32 || wraps s.s2 s1⟩

def do16 (s : Sums) (buf : List UInt8) : Sums := (buf.take 16).foldl do1 s

def Sums.reduce (s : Sums) : Sums := ⟨s.s1 % base, s.s2 % base, s.wrapped⟩

/-- The inner loop, with what it leaves of the buffer. Every round takes bytes, so `fuel`
is their number. -/
def blocks : Nat → Sums → List UInt8 → Sums × List UInt8
  | 0, s, buf => (s, buf)
  | fuel + 1, s, buf =>
    if buf.length > 16 && s.s2 < (1 : UInt32) <<< 31 then blocks fuel (do16 s buf) (buf.drop 16)
    else (s, buf)

/-- The outer loop; `len` is the length of the buffer left. -/
def rounds : Nat → Sums → List UInt8 → Sums
  | 0, s, _ => s
  | fuel + 1, s, buf =>
    match blocks buf.length s buf with
    | (s, []) => s
    | (s, byte :: buf) => rounds fuel (do1 s byte).reduce buf

def adlerSums (adler : UInt32) (buf : List UInt8) : Sums :=
  rounds buf.length ⟨adler &&& 0xffff, adler >>> 16, false⟩ buf

def calcAdler32 (adler : UInt32) (buf : List UInt8) : UInt32 :=
  let s := adlerSums adler buf
  (s.s2 <<< 16) ||| s.s1

/-- A byte is added to the first sum and the first sum to the second, modulo 65521. -/
def adlerStep (s : Nat × Nat) (byte : UInt8) : Nat × Nat :=
  ((s.1 + byte.toNat) % 65521, (s.2 + (s.1 + byte.toNat) % 65521) % 65521)

/-- Adler-32 from a start value, which holds the two sums. -/
def adler32 (start : Nat) (bytes : List UInt8) : Nat :=
  let s := bytes.foldl adlerStep (start % 65536, start / 65536)
  s.2 * 65536 + s.1

/-- The sums stand for those of the definition. -/
structure Congruent (s : Sums) (sums : Nat × Nat) : Prop where
  s1 : s.s1.toNat % 65521 = sums.1 % 65521
  s2 : s.s2.toNat % 65521 = sums.2 % 65521

/-- The first sum is small beside the second: it takes many bytes to make it large, and
all of its values on the way are in the second. -/
structure Tame (s : Sums) : Prop where
  exact : s.wrapped = false
  square : s.s1.toNat ^ 2 ≤ 510 * s.s2.toNat + 65535 ^ 2

variable {s : Sums} {sums : Nat × Nat} {buf : List UInt8}

theorem Tame.s1_lt (htame : Tame s) (hs2 : s.s2.toNat < 2 ^ 31) : s.s1.toNat < 2 ^ 20 := by
  by_contra hge
  have hsquare := htame.square
  have hlarge := Nat.pow_le_pow_left (Nat.le_of_not_lt hge) 2
  omega

private theorem do1_spec (htame : Tame s) (hroom : s.s2.toNat + s.s1.toNat + 255 < 2 ^ 32)
    (byte : UInt8) :
    Tame (do1 s byte) ∧ (do1 s byte).s1.toNat = s.s1.toNat + byte.toNat ∧
      (do1 s byte).s2.toNat = s.s2.toNat + (s.s1.toNat + byte.toNat) := by
  have hbyte := byte.toNat_lt
  have hs1 : (s.s1 + byte.toUInt32).toNat = s.s1.toNat + byte.toNat := by
    rw [UInt32.toNat_add, UInt8.toNat_toUInt32, Nat.mod_eq_of_lt (by omega)]
  have hs2 : (s.s2 + (s.s1 + byte.toUInt32)).toNat = s.s2.toNat + (s.s1.toNat + byte.toNat) := by
    rw [UInt32.toNat_add, hs1, Nat.mod_eq_of_lt (by omega)]
  have hwraps1 : wraps s.s1 byte.toUInt32 = false := by
    simp only [wraps, UInt8.toNat_toUInt32, decide_eq_false_iff_not]
    omega
  have hwraps2 : wraps s.s2 (s.s1 + byte.toUInt32) = false := by
    simp only [wraps, hs1, decide_eq_false_iff_not]
    omega
  refine ⟨⟨?_, ?_⟩, hs1, hs2⟩
  · simp [do1, htame.exact, hwraps1, hwraps2]
  · change (s.s1 + byte.toUInt32).toNat ^ 2 ≤
      510 * (s.s2 + (s.s1 + byte.toUInt32)).toNat + 65535 ^ 2
    rw [hs1, hs2]
    have hsquare := htame.square
    have hmul : byte.toNat * (s.s1.toNat + byte.toNat) ≤ 255 * (s.s1.toNat + byte.toNat) :=
      Nat.mul_le_mul_right _ (by omega)
    nlinarith

private theorem do1_congruent (htame : Tame s) (hroom : s.s2.toNat + s.s1.toNat + 255 < 2 ^ 32)
    (hcongruent : Congruent s sums) (byte : UInt8) :
    Congruent (do1 s byte) (adlerStep sums byte) := by
  obtain ⟨-, hs1, hs2⟩ := do1_spec htame hroom byte
  have h1 := hcongruent.s1
  have h2 := hcongruent.s2
  refine ⟨?_, ?_⟩
  · rw [hs1, adlerStep]
    dsimp only
    omega
  · rw [hs2, adlerStep]
    dsimp only
    omega

def Ready (s : Sums) : Prop := s.s2.toNat + s.s1.toNat + 255 < 2 ^ 32

private theorem run_spec (limit : Nat) (htame : Tame s) (hcongruent : Congruent s sums)
    (hs1 : s.s1.toNat + 255 * buf.length ≤ limit)
    (hs2 : s.s2.toNat + buf.length * limit < 2 ^ 32) :
    Tame (buf.foldl do1 s) ∧ Congruent (buf.foldl do1 s) (buf.foldl adlerStep sums) ∧
      (buf.foldl do1 s).s1.toNat ≤ limit ∧
      (buf.foldl do1 s).s2.toNat ≤ s.s2.toNat + buf.length * limit := by
  induction buf generalizing s sums with
  | nil => exact ⟨htame, hcongruent, by simpa using hs1, by simp⟩
  | cons byte buf ih =>
    rw [List.length_cons] at hs1 hs2
    have hmul : (buf.length + 1) * limit = buf.length * limit + limit := Nat.succ_mul _ _
    have hroom : s.s2.toNat + s.s1.toNat + 255 < 2 ^ 32 := by omega
    have hbyte := byte.toNat_lt
    obtain ⟨htame', hs1', hs2'⟩ := do1_spec htame hroom byte
    obtain ⟨hlast, hsame, hlow, hhigh⟩ := ih htame' (do1_congruent htame hroom hcongruent byte)
      (by omega) (by omega)
    refine ⟨hlast, hsame, hlow, ?_⟩
    rw [List.foldl_cons, List.length_cons, hmul]
    omega

/-- What the inner loop takes is from the front of the buffer, and never all of it. -/
private theorem blocks_spec (fuel : Nat) (buf : List UInt8) (htame : Tame s) (hready : Ready s)
    (hcongruent : Congruent s sums) :
    ∃ after taken rest, blocks fuel s buf = (after, rest) ∧ buf = taken ++ rest ∧
      (buf ≠ [] → rest ≠ []) ∧ Tame after ∧ Ready after ∧
      Congruent after (taken.foldl adlerStep sums) := by
  induction fuel generalizing s sums buf with
  | zero => exact ⟨s, [], buf, rfl, rfl, id, htame, hready, hcongruent⟩
  | succ fuel ih =>
    rw [blocks]
    split_ifs with hmore
    · simp only [Bool.and_eq_true, decide_eq_true_eq, UInt32.lt_iff_toNat_lt] at hmore
      obtain ⟨hlong, hsmall⟩ := hmore
      change s.s2.toNat < 2 ^ 31 at hsmall
      have hs1 := htame.s1_lt hsmall
      have hlength : (buf.take 16).length = 16 := by
        rw [List.length_take]
        omega
      obtain ⟨htame', hcongruent', hlow, hhigh⟩ := run_spec (2 ^ 20 + 4080) htame
        hcongruent (by rw [hlength]; omega) (by rw [hlength]; omega)
      have hready' : Ready (do16 s buf) := by
        unfold Ready do16
        omega
      obtain ⟨after, taken, rest, hblocks, hsplit, hrest, hend⟩ :=
        ih (buf.drop 16) htame' hready' hcongruent'
      refine ⟨after, buf.take 16 ++ taken, rest, hblocks, ?_, fun _ => hrest ?_, ?_⟩
      · rw [List.append_assoc, ← hsplit, List.take_append_drop]
      · simpa [List.drop_eq_nil_iff] using hlong
      · rw [List.foldl_append]
        exact hend
    · exact ⟨s, [], buf, rfl, rfl, id, htame, hready, hcongruent⟩

private theorem reduce_spec (htame : Tame s) (hready : Ready s) (hcongruent : Congruent s sums)
    (byte : UInt8) :
    (do1 s byte).reduce.wrapped = false ∧
      (do1 s byte).reduce.s1.toNat = (adlerStep sums byte).1 ∧
      (do1 s byte).reduce.s2.toNat = (adlerStep sums byte).2 := by
  obtain ⟨htame', -, -⟩ := do1_spec htame hready byte
  obtain ⟨h1, h2⟩ := do1_congruent htame hready hcongruent byte
  have hfirst : (adlerStep sums byte).1 % 65521 = (adlerStep sums byte).1 := Nat.mod_mod _ _
  have hsecond : (adlerStep sums byte).2 % 65521 = (adlerStep sums byte).2 := Nat.mod_mod _ _
  refine ⟨htame'.exact, ?_, ?_⟩
  · change ((do1 s byte).s1 % base).toNat = _
    rw [UInt32.toNat_mod, ← hfirst, ← h1]
    rfl
  · change ((do1 s byte).s2 % base).toNat = _
    rw [UInt32.toNat_mod, ← hsecond, ← h2]
    rfl

private theorem adlerStep_lt (sums : Nat × Nat) (byte : UInt8) :
    (adlerStep sums byte).1 < 65521 ∧ (adlerStep sums byte).2 < 65521 :=
  ⟨Nat.mod_lt _ (by decide), Nat.mod_lt _ (by decide)⟩

private theorem tame_of_small (hexact : s.wrapped = false) (hs1 : s.s1.toNat ≤ 65535) : Tame s := by
  have hsquare := Nat.pow_le_pow_left hs1 2
  exact ⟨hexact, by omega⟩

private theorem rounds_spec {fuel : Nat} (hfuel : buf.length ≤ fuel) (hbuf : buf ≠ [])
    (htame : Tame s) (hready : Ready s) (hcongruent : Congruent s sums) :
    (rounds fuel s buf).wrapped = false ∧
      (rounds fuel s buf).s1.toNat = (buf.foldl adlerStep sums).1 ∧
      (rounds fuel s buf).s2.toNat = (buf.foldl adlerStep sums).2 := by
  induction fuel generalizing s sums buf with
  | zero => exact absurd (List.eq_nil_of_length_eq_zero (Nat.le_zero.mp hfuel)) hbuf
  | succ fuel ih =>
    obtain ⟨after, taken, rest, hblocks, hsplit, hrest, htame', hready', hcongruent'⟩ :=
      blocks_spec buf.length buf htame hready hcongruent
    obtain ⟨byte, rest, rfl⟩ := List.exists_cons_of_ne_nil (hrest hbuf)
    obtain ⟨hexact, hs1, hs2⟩ := reduce_spec htame' hready' hcongruent' byte
    obtain ⟨hlow, hhigh⟩ := adlerStep_lt (taken.foldl adlerStep sums) byte
    rw [rounds, hblocks]
    dsimp only
    by_cases hnil : rest = []
    · subst hnil
      have hstop : rounds fuel (do1 after byte).reduce [] = (do1 after byte).reduce := by
        cases fuel <;> rfl
      rw [hstop, hsplit, List.foldl_append]
      exact ⟨hexact, hs1, hs2⟩
    · have hshorter : rest.length ≤ fuel := by
        rw [hsplit, List.length_append, List.length_cons] at hfuel
        omega
      have hnext := ih hshorter hnil (tame_of_small hexact (by omega))
        (show _ + _ + 255 < 2 ^ 32 by omega)
        (⟨by rw [hs1], by rw [hs2]⟩ : Congruent _ (adlerStep (taken.foldl adlerStep sums) byte))
      have hfold : buf.foldl adlerStep sums =
          rest.foldl adlerStep (adlerStep (taken.foldl adlerStep sums) byte) := by
        rw [hsplit, List.foldl_append]
        rfl
      rw [hfold]
      exact hnext

private theorem start_spec (adler : UInt32) :
    (adler &&& 0xffff).toNat = adler.toNat % 65536 ∧
      (adler >>> 16).toNat = adler.toNat / 65536 := by
  constructor
  · rw [UInt32.toNat_and]
    exact Nat.and_two_pow_sub_one_eq_mod _ 16
  · rw [UInt32.toNat_shiftRight]
    exact Nat.shiftRight_eq_div_pow _ 16

private theorem packed_toNat {s1 s2 : UInt32} (hs1 : s1.toNat < 65536) (hs2 : s2.toNat < 65536) :
    ((s2 <<< 16) ||| s1).toNat = s2.toNat * 65536 + s1.toNat := by
  have hshift : (s2 <<< 16).toNat = s2.toNat <<< 16 := by
    rw [UInt32.toNat_shiftLeft]
    have hroom : s2.toNat <<< 16 < 2 ^ 32 := by
      rw [Nat.shiftLeft_eq]
      omega
    exact Nat.mod_eq_of_lt hroom
  rw [UInt32.toNat_or, hshift, ← Nat.shiftLeft_add_eq_or_of_lt hs1, Nat.shiftLeft_eq]

private theorem foldl_adlerStep_lt (sums : Nat × Nat) (hbuf : buf ≠ []) :
    (buf.foldl adlerStep sums).1 < 65521 ∧ (buf.foldl adlerStep sums).2 < 65521 := by
  rw [← List.dropLast_concat_getLast hbuf, List.foldl_append]
  exact adlerStep_lt _ _

private theorem adlerSums_spec (adler : UInt32) (hbuf : buf ≠ []) :
    (adlerSums adler buf).wrapped = false ∧
      (calcAdler32 adler buf).toNat = adler32 adler.toNat buf := by
  obtain ⟨hlow, hhigh⟩ := start_spec adler
  have hadler := adler.toNat_lt
  have htame : Tame ⟨adler &&& 0xffff, adler >>> 16, false⟩ :=
    tame_of_small rfl (show (adler &&& 0xffff).toNat ≤ 65535 by omega)
  have hready : Ready ⟨adler &&& 0xffff, adler >>> 16, false⟩ :=
    show (adler >>> 16).toNat + (adler &&& 0xffff).toNat + 255 < 2 ^ 32 by omega
  have hcongruent : Congruent ⟨adler &&& 0xffff, adler >>> 16, false⟩
      (adler.toNat % 65536, adler.toNat / 65536) :=
    ⟨congrArg (· % 65521) hlow, congrArg (· % 65521) hhigh⟩
  obtain ⟨hexact, h1, h2⟩ := rounds_spec (le_refl buf.length) hbuf htame hready hcongruent
  obtain ⟨hlt1, hlt2⟩ := foldl_adlerStep_lt (adler.toNat % 65536, adler.toNat / 65536) hbuf
  refine ⟨hexact, ?_⟩
  rw [adler32, ← h1, ← h2]
  exact packed_toNat (by rw [adlerSums, h1]; omega) (by rw [adlerSums, h2]; omega)

@[simp] private theorem calcAdler32_nil (adler : UInt32) : calcAdler32 adler [] = adler := by
  obtain ⟨hlow, hhigh⟩ := start_spec adler
  have hadler := adler.toNat_lt
  apply UInt32.toNat.inj
  change ((adler >>> 16 <<< 16) ||| (adler &&& 0xffff)).toNat = adler.toNat
  rw [packed_toNat (by omega) (by omega)]
  omega

private theorem adler32_append (start : Nat) {front : List UInt8} (hfront : front ≠ [])
    (back : List UInt8) : adler32 start (front ++ back) = adler32 (adler32 start front) back := by
  obtain ⟨hlow, hhigh⟩ := foldl_adlerStep_lt (start % 65536, start / 65536) hfront
  have hunpack : (adler32 start front % 65536, adler32 start front / 65536) =
      front.foldl adlerStep (start % 65536, start / 65536) := by
    rw [adler32]
    apply Prod.ext
    · dsimp only
      omega
    · dsimp only
      omega
  rw [adler32, adler32, List.foldl_append, hunpack]

private theorem calcAdler32_append (adler : UInt32) (front back : List UInt8) :
    calcAdler32 adler (front ++ back) = calcAdler32 (calcAdler32 adler front) back := by
  by_cases hfront : front = []
  · rw [hfront, List.nil_append, calcAdler32_nil]
  by_cases hback : back = []
  · rw [hback, List.append_nil, calcAdler32_nil]
  have hboth : front ++ back ≠ [] := fun h => hfront (List.append_eq_nil_iff.mp h).1
  apply UInt32.toNat.inj
  rw [(adlerSums_spec adler hboth).2, (adlerSums_spec _ hback).2, (adlerSums_spec adler hfront).2,
    adler32_append _ hfront]

/-- Over every buffer that is not empty no addition leaves 32 bits and the result is that
of the definition; a concatenation can be taken in two calls. -/
theorem calcAdler32_exact (adler : UInt32) (buf : List UInt8) (hbuf : buf ≠ []) :
    (adlerSums adler buf).wrapped = false ∧
      (calcAdler32 adler buf).toNat = adler32 adler.toNat buf ∧
      ∀ back, calcAdler32 adler (buf ++ back) = calcAdler32 (calcAdler32 adler buf) back :=
  ⟨(adlerSums_spec adler hbuf).1, (adlerSums_spec adler hbuf).2, calcAdler32_append adler buf⟩

/-- After some 4100 of these bytes the second sum has passed `2^31` and is reduced. -/
theorem calcAdler32_exact_long :
    (adlerSums 1 (List.replicate 6000 255)).wrapped = false ∧
      (calcAdler32 1 (List.replicate 6000 255)).toNat = adler32 1 (List.replicate 6000 255) ∧
      ∀ back, calcAdler32 1 (List.replicate 6000 255 ++ back) =
        calcAdler32 (calcAdler32 1 (List.replicate 6000 255)) back :=
  calcAdler32_exact 1 (List.replicate 6000 255)
    (List.ne_nil_of_length_pos (by rw [List.length_replicate]; omega))

example : calcAdler32 1 [97, 98, 99] = 0x024d0127 := by decide

end Libsax.Checksum
