import Mathlib.Tactic.IntervalCases
import Libsax.Lib.Bytes

/-! `hash32_twins`: two 32-bit hashes of a key, which is read in words where its address
allows it and in bytes elsewhere. -/
namespace Libsax.Checksum.Hash32

open Libsax.Lib

structure Mix where
  a : UInt32
  b : UInt32
  c : UInt32

def rot (x k : UInt32) : UInt32 := (x <<< k) ||| (x >>> (32 - k))

def mixLoop (m : Mix) : Mix :=
  let a := (m.a - m.c) ^^^ rot m.c 4
  let c := m.c + m.b
  let b := (m.b - a) ^^^ rot a 6
  let a := a + c
  let c := (c - b) ^^^ rot b 8
  let b := b + a
  let a := (a - c) ^^^ rot c 16
  let c := c + b
  let b := (b - a) ^^^ rot a 19
  let a := a + c
  let c := (c - b) ^^^ rot b 4
  let b := b + a
  ⟨a, b, c⟩

def mixDone (m : Mix) : Mix :=
  let c := (m.c ^^^ m.b) - rot m.b 14
  let a := (m.a ^^^ c) - rot c 11
  let b := (m.b ^^^ a) - rot a 25
  let c := (c ^^^ b) - rot b 16
  let a := (a ^^^ c) - rot c 4
  let b := (b ^^^ a) - rot a 14
  let c := (c ^^^ b) - rot b 24
  ⟨a, b, c⟩

/-- `s[i]`, as an operand of 32 bits. -/
def byteAt (s : List UInt8) (i : Nat) : UInt32 := (s.getD i 0).toUInt32

/-- `k[i]`, read by a little-endian machine. -/
def wordAt (s : List UInt8) (i : Nat) : UInt32 :=
  UInt32.ofNat (Bytes.decode ((s.drop (4 * i)).take 4))

def wordBlock (s : List UInt8) (m : Mix) : Mix :=
  ⟨m.a + wordAt s 0, m.b + wordAt s 1, m.c + wordAt s 2⟩

def byteBlock (s : List UInt8) (m : Mix) : Mix :=
  ⟨m.a + (byteAt s 0 + (byteAt s 1 <<< 8) + (byteAt s 2 <<< 16) + (byteAt s 3 <<< 24)),
    m.b + (byteAt s 4 + (byteAt s 5 <<< 8) + (byteAt s 6 <<< 16) + (byteAt s 7 <<< 24)),
    m.c + (byteAt s 8 + (byteAt s 9 <<< 8) + (byteAt s 10 <<< 16) + (byteAt s 11 <<< 24))⟩

/-- All but the last block. Every round takes bytes, so `fuel` is their number. -/
def blocks (block : List UInt8 → Mix → Mix) : Nat → Nat → List UInt8 → Mix →
    Nat × List UInt8 × Mix
  | 0, len, s, m => (len, s, m)
  | fuel + 1, len, s, m =>
    if len > 12 then blocks block fuel (len - 12) (s.drop 12) (mixLoop (block s m))
    else (len, s, m)

/-- A case of a `switch`, which ends with `break` or falls through to the next one. -/
structure Case where
  label : Nat
  act : Mix → Mix
  ends : Bool

def fall : List Case → Mix → Mix
  | [], m => m
  | case :: rest, m => if case.ends then case.act m else fall rest (case.act m)

def switch (len : Nat) : List Case → Mix → Mix
  | [], m => m
  | case :: rest, m => if len = case.label then fall (case :: rest) m else switch len rest m

def addA (x : UInt32) (m : Mix) : Mix := { m with a := m.a + x }

def addB (x : UInt32) (m : Mix) : Mix := { m with b := m.b + x }

def addC (x : UInt32) (m : Mix) : Mix := { m with c := m.c + x }

/-- The cases where the key is read in words. -/
def wordCases (s : List UInt8) : List Case := [
  ⟨12, fun m => addA (wordAt s 0) (addB (wordAt s 1) (addC (wordAt s 2) m)), true⟩,
  ⟨11, addC (byteAt s 10 <<< 16), false⟩,
  ⟨10, addC (byteAt s 9 <<< 8), false⟩,
  ⟨9, addC (byteAt s 8), false⟩,
  ⟨8, fun m => addA (wordAt s 0) (addB (wordAt s 1) m), true⟩,
  ⟨7, addB (byteAt s 6 <<< 16), false⟩,
  ⟨6, addB (byteAt s 5 <<< 8), false⟩,
  ⟨5, addB (byteAt s 4), false⟩,
  ⟨4, addA (wordAt s 0), true⟩,
  ⟨3, addA (byteAt s 2 <<< 16), false⟩,
  ⟨2, addA (byteAt s 1 <<< 8), false⟩,
  ⟨1, addA (byteAt s 0), true⟩]

/-- The cases where it is read in bytes. -/
def byteCases (s : List UInt8) : List Case := [
  ⟨12, addC (byteAt s 11 <<< 24), false⟩,
  ⟨11, addC (byteAt s 10 <<< 16), false⟩,
  ⟨10, addC (byteAt s 9 <<< 8), false⟩,
  ⟨9, addC (byteAt s 8), false⟩,
  ⟨8, addB (byteAt s 7 <<< 24), false⟩,
  ⟨7, addB (byteAt s 6 <<< 16), false⟩,
  ⟨6, addB (byteAt s 5 <<< 8), false⟩,
  ⟨5, addB (byteAt s 4), false⟩,
  ⟨4, addA (byteAt s 3 <<< 24), false⟩,
  ⟨3, addA (byteAt s 2 <<< 16), false⟩,
  ⟨2, addA (byteAt s 1 <<< 8), false⟩,
  ⟨1, addA (byteAt s 0), true⟩]

/-- A path through the key; `case 0` returns without the last mixing. -/
def hashPath (block : List UInt8 → Mix → Mix) (cases : List UInt8 → List Case) (s : List UInt8)
    (len : Nat) (m : Mix) : Mix :=
  match blocks block len len s m with
  | (0, _, m) => m
  | (len, s, m) => mixDone (switch len (cases s) m)

/-- `hash32_twins`; `s` is the memory from the address on. The results are `*pc` and `*pb`. -/
def hash32Twins (littleEndian : Bool) (address : Nat) (s : List UInt8) (len pc : UInt32)
    (pb : Option UInt32) : UInt32 × Option UInt32 :=
  let start := 0xdeadbeef + len + pc
  let m : Mix := ⟨start, start, start + pb.getD 0⟩
  let m :=
    if littleEndian && address % 4 == 0 then hashPath wordBlock wordCases s len.toNat m
    else hashPath byteBlock byteCases s len.toNat m
  (m.c, pb.map fun _ => m.b)

private theorem toNat_byteAt_lt (s : List UInt8) (i : Nat) : (byteAt s i).toNat < 256 :=
  (s.getD i 0).toNat_lt

private theorem decode_take_succ (bytes : List UInt8) (n : Nat) :
    Bytes.decode (bytes.take (n + 1)) =
      (bytes.getD 0 0).toNat + 256 * Bytes.decode ((bytes.drop 1).take n) := by
  cases bytes with
  | nil => simp [Bytes.decode]
  | cons byte rest => simp [Bytes.decode]

private theorem wordAt_eq (s : List UInt8) (i : Nat) :
    wordAt s i = byteAt s (4 * i) + (byteAt s (4 * i + 1) <<< 8) +
      (byteAt s (4 * i + 2) <<< 16) + (byteAt s (4 * i + 3) <<< 24) := by
  have hbytes : Bytes.decode ((s.drop (4 * i)).take 4) = (byteAt s (4 * i)).toNat +
      256 * ((byteAt s (4 * i + 1)).toNat + 256 * ((byteAt s (4 * i + 2)).toNat +
        256 * (byteAt s (4 * i + 3)).toNat)) := by
    simp only [decode_take_succ, List.drop_drop, List.take_zero, Bytes.decode]
    simp [byteAt, List.getD_eq_getElem?_getD]
  have h0 := toNat_byteAt_lt s (4 * i)
  have h1 := toNat_byteAt_lt s (4 * i + 1)
  have h2 := toNat_byteAt_lt s (4 * i + 2)
  have h3 := toNat_byteAt_lt s (4 * i + 3)
  apply UInt32.toNat_inj.mp
  simp only [wordAt, hbytes, UInt32.toNat_ofNat', UInt32.toNat_add, UInt32.toNat_shiftLeft,
    UInt32.reduceToNat, Nat.shiftLeft_eq, Nat.reduceMod, Nat.reducePow]
  omega

private theorem wordBlock_eq : wordBlock = byteBlock := by
  funext s m
  simp only [wordBlock, byteBlock, wordAt_eq]

private theorem add_wordAt (x : UInt32) (s : List UInt8) (i : Nat) :
    x + wordAt s i = x + (byteAt s (4 * i + 3) <<< 24) + (byteAt s (4 * i + 2) <<< 16) +
      (byteAt s (4 * i + 1) <<< 8) + byteAt s (4 * i) := by
  rw [wordAt_eq, UInt32.add_comm _ (byteAt s (4 * i + 3) <<< 24),
    UInt32.add_comm _ (byteAt s (4 * i + 2) <<< 16), UInt32.add_comm (byteAt s (4 * i))]
  simp only [UInt32.add_assoc]

private theorem addA_wordAt (s : List UInt8) (m : Mix) : addA (wordAt s 0) m =
    addA (byteAt s 0) (addA (byteAt s 1 <<< 8) (addA (byteAt s 2 <<< 16)
      (addA (byteAt s 3 <<< 24) m))) := by
  simp only [addA, add_wordAt, Nat.mul_zero, Nat.zero_add]

private theorem addB_wordAt (s : List UInt8) (m : Mix) : addB (wordAt s 1) m =
    addB (byteAt s 4) (addB (byteAt s 5 <<< 8) (addB (byteAt s 6 <<< 16)
      (addB (byteAt s 7 <<< 24) m))) := by
  simp only [addB, add_wordAt, Nat.mul_one, Nat.reduceAdd]

private theorem addC_wordAt (s : List UInt8) (m : Mix) : addC (wordAt s 2) m =
    addC (byteAt s 8) (addC (byteAt s 9 <<< 8) (addC (byteAt s 10 <<< 16)
      (addC (byteAt s 11 <<< 24) m))) := by
  simp only [addC, add_wordAt, Nat.reduceMul, Nat.reduceAdd]

/-- Whatever is left of the key, the one `switch` adds what the other one adds. -/
private theorem switch_eq (s : List UInt8) (m : Mix) {len : Nat} (hlen : len ≤ 12) :
    switch len (wordCases s) m = switch len (byteCases s) m := by
  interval_cases len
  all_goals
    simp [switch, fall, wordCases, byteCases, addA_wordAt, addB_wordAt, addC_wordAt]

theorem blocks_le (block : List UInt8 → Mix → Mix) {fuel len : Nat} (hfuel : len ≤ fuel)
    (s : List UInt8) (m : Mix) : (blocks block fuel len s m).1 ≤ 12 := by
  induction fuel generalizing len s m with
  | zero =>
    rw [Nat.le_zero.mp hfuel]
    exact Nat.zero_le 12
  | succ fuel ih =>
    rw [blocks]
    split_ifs with hlong
    · apply ih
      omega
    · exact Nat.le_of_not_lt hlong

private theorem hashPath_eq (s : List UInt8) (len : Nat) (m : Mix) :
    hashPath wordBlock wordCases s len m = hashPath byteBlock byteCases s len m := by
  have hlen := blocks_le byteBlock (le_refl len) s m
  unfold hashPath
  rw [wordBlock_eq]
  split
  · rfl
  · next hblocks =>
    rw [hblocks] at hlen
    rw [switch_eq _ _ hlen]

/-- The address of a key changes nothing. -/
theorem hash32Twins_address (address other : Nat) (s : List UInt8) (len pc : UInt32)
    (pb : Option UInt32) :
    hash32Twins true address s len pc pb = hash32Twins true other s len pc pb := by
  unfold hash32Twins
  simp only [hashPath_eq, ite_self]

end Libsax.Checksum.Hash32
