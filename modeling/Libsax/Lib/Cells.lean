import Mathlib.Data.List.TakeWhile
import Mathlib.Algebra.Ring.Int.Defs
import Mathlib.Algebra.Ring.Nat
import Mathlib.Tactic.SplitIfs

/-! A destination that is filled from its front: which cells were stored to, with what,
and how far the stores went. -/
namespace Libsax.Lib

/-- `used` is the number of cells up to the last one stored to. -/
structure Cells where
  cell : Nat → Option UInt8
  used : Nat

namespace Cells

def fresh : Cells := ⟨fun _ => none, 0⟩

def put (cells : Cells) (at_ : Nat) (byte : UInt8) : Cells :=
  ⟨fun i => if i = at_ then some byte else cells.cell i, max cells.used (at_ + 1)⟩

def putAll (cells : Cells) (at_ : Nat) : List UInt8 → Cells
  | [] => cells
  | byte :: rest => (cells.put at_ byte).putAll (at_ + 1) rest

def text (cells : Cells) : Nat → Option (List UInt8)
  | 0 => some []
  | len + 1 => (cells.text len).bind fun front => (cells.cell len).map fun byte => front ++ [byte]

/-- The text from a cell on up to the first zero, if all of it was stored. -/
def zeroText (cells : Cells) : Nat → Nat → Option (List UInt8)
  | 0, _ => none
  | fuel + 1, i => (cells.cell i).bind fun byte =>
    if byte = 0 then some [] else (cells.zeroText fuel (i + 1)).map (byte :: ·)

def Holds (cells : Cells) (bytes : List UInt8) : Prop :=
  ∀ i < bytes.length, cells.cell i = bytes[i]?

variable {cells : Cells} {bytes front back : List UInt8} {at_ len : Nat} {byte : UInt8}

@[simp] theorem holds_nil : cells.Holds [] := fun _ h => absurd h (Nat.not_lt_zero _)

theorem Holds.left (hholds : cells.Holds (front ++ back)) : cells.Holds front := by
  intro i hi
  rw [hholds i (by rw [List.length_append]; omega), List.getElem?_append_left hi]

theorem cell_put_of_ne {i : Nat} (hne : i ≠ at_) : (cells.put at_ byte).cell i = cells.cell i :=
  if_neg hne

theorem cell_putAll_of_outside {i : Nat} (hout : i < at_ ∨ at_ + bytes.length ≤ i) :
    (cells.putAll at_ bytes).cell i = cells.cell i := by
  induction bytes generalizing cells at_ with
  | nil => rfl
  | cons byte rest ih =>
    rw [List.length_cons] at hout
    rw [putAll, ih (by omega), cell_put_of_ne (by omega)]

theorem Holds.put_behind (hholds : cells.Holds bytes) (hle : bytes.length ≤ at_) :
    (cells.put at_ byte).Holds bytes := by
  intro i hi
  rw [cell_put_of_ne (by omega), hholds i hi]

theorem Holds.put_next (hholds : cells.Holds bytes) :
    (cells.put bytes.length byte).Holds (bytes ++ [byte]) := by
  intro i hi
  unfold put
  dsimp only
  rw [List.length_append, List.length_singleton] at hi
  by_cases hlast : i = bytes.length
  · rw [if_pos hlast, hlast, List.getElem?_concat_length]
  · have hlt : i < bytes.length := by omega
    rw [if_neg hlast, hholds i hlt, List.getElem?_append_left hlt]

theorem Holds.putAll_next (hholds : cells.Holds bytes) (rest : List UInt8) :
    (cells.putAll bytes.length rest).Holds (bytes ++ rest) := by
  induction rest generalizing cells bytes with
  | nil => rwa [putAll, List.append_nil]
  | cons byte rest ih =>
    have hnext := ih (@Holds.put_next cells bytes byte hholds)
    rw [List.length_append, List.length_singleton, List.append_assoc] at hnext
    exact hnext

@[simp] theorem used_put : (cells.put at_ byte).used = max cells.used (at_ + 1) := rfl

theorem used_putAll_le {limit : Nat} (hused : cells.used ≤ limit)
    (hle : at_ + bytes.length ≤ limit) : (cells.putAll at_ bytes).used ≤ limit := by
  induction bytes generalizing cells at_ with
  | nil => exact hused
  | cons byte rest ih =>
    rw [List.length_cons] at hle
    exact ih (by rw [used_put]; omega) (by omega)

theorem text_eq_some : cells.text len = some bytes ↔ bytes.length = len ∧ cells.Holds bytes := by
  induction len generalizing bytes with
  | zero =>
    constructor
    · intro htext
      obtain rfl : [] = bytes := Option.some.inj htext
      exact ⟨rfl, holds_nil⟩
    · rintro ⟨hlength, -⟩
      rw [List.eq_nil_of_length_eq_zero hlength, text]
  | succ len ih =>
    constructor
    · intro htext
      obtain ⟨front, hfront, hlast⟩ := Option.bind_eq_some_iff.mp htext
      obtain ⟨byte, hbyte, rfl⟩ := Option.map_eq_some_iff.mp hlast
      obtain ⟨rfl, hholds⟩ := ih.mp hfront
      refine ⟨by rw [List.length_append, List.length_singleton], fun i hi => ?_⟩
      rw [List.length_append, List.length_singleton] at hi
      by_cases hend : i = front.length
      · rw [hend, hbyte, List.getElem?_concat_length]
      · have hlt : i < front.length := by omega
        rw [hholds i hlt, List.getElem?_append_left hlt]
    · rintro ⟨hlength, hholds⟩
      have hne : bytes ≠ [] := fun hnil => by simp [hnil] at hlength
      have hsplit := List.dropLast_concat_getLast hne
      have hfront : bytes.dropLast.length = len := by
        rw [List.length_dropLast, hlength, Nat.add_sub_cancel]
      have hlast : cells.cell len = some (bytes.getLast hne) := by
        rw [hholds len (by omega), List.getLast_eq_getElem, List.getElem?_eq_getElem (by omega)]
        simp only [hlength, Nat.add_sub_cancel]
      rw [text, ih.mpr ⟨hfront, Holds.left (hsplit.symm ▸ hholds)⟩, Option.bind_some, hlast,
        Option.map_some, hsplit]

theorem Holds.text (hholds : cells.Holds bytes) : cells.text bytes.length = some bytes :=
  text_eq_some.mpr ⟨rfl, hholds⟩

theorem Holds.zeroText (hholds : cells.Holds (front ++ back ++ [0]))
    (hback : ∀ byte ∈ back, byte ≠ 0) {fuel : Nat} (hfuel : back.length < fuel) :
    cells.zeroText fuel front.length = some back := by
  induction back generalizing front fuel with
  | nil =>
    obtain ⟨fuel, rfl⟩ := Nat.exists_eq_add_one.mpr hfuel
    have hzero := hholds front.length (by simp)
    rw [List.append_nil, List.getElem?_concat_length] at hzero
    rw [Cells.zeroText, hzero, Option.bind_some, if_pos rfl]
  | cons byte back ih =>
    obtain ⟨fuel, rfl⟩ := Nat.exists_eq_add_one.mpr (Nat.lt_of_le_of_lt (Nat.zero_le _) hfuel)
    have hbyte := hholds front.length (by simp)
    rw [List.append_assoc, List.getElem?_append_right (le_refl _), Nat.sub_self] at hbyte
    have hrest : front ++ byte :: back ++ [0] = (front ++ [byte]) ++ back ++ [0] := by simp
    have hlength : (front ++ [byte]).length = front.length + 1 := by
      rw [List.length_append, List.length_singleton]
    rw [hrest] at hholds
    have hnext := ih hholds (fun other hother => hback other (List.mem_cons_of_mem _ hother))
      (Nat.lt_of_succ_lt_succ hfuel)
    rw [hlength] at hnext
    rw [Cells.zeroText, hbyte]
    simp only [List.cons_append, List.getElem?_cons_zero, Option.bind_some,
      if_neg (hback byte List.mem_cons_self), hnext, Option.map_some]

theorem zeroText_length_le {fuel i j : Nat} (hzero : cells.cell j = some 0) (hle : i ≤ j)
    (htext : cells.zeroText fuel i = some bytes) : i + bytes.length ≤ j := by
  induction fuel generalizing i bytes with
  | zero => exact absurd htext.symm (Option.some_ne_none _)
  | succ fuel ih =>
    obtain ⟨byte, hbyte, hrest⟩ := Option.bind_eq_some_iff.mp htext
    by_cases hend : byte = 0
    · rw [if_pos hend] at hrest
      obtain rfl := Option.some.inj hrest
      exact hle
    · rw [if_neg hend] at hrest
      obtain ⟨rest, hnext, rfl⟩ := Option.map_eq_some_iff.mp hrest
      have hne : i ≠ j := by
        rintro rfl
        exact hend (Option.some.inj (hbyte.symm.trans hzero))
      have hlater := ih (by omega) hnext
      rw [List.length_cons]
      omega

end Cells

/-- A destination of `size` bytes after a call, and the text that is taken from it; `none`
where a byte of the text was never stored. -/
structure Filled where
  size : Nat
  cells : Cells
  text : Option (List UInt8)

/-- No store went beyond what was allocated. -/
def Filled.Fits (filled : Filled) : Prop := filled.cells.used ≤ filled.size

/-- The length of a string that ends at its first zero, or behind `src`. -/
def strlen (src : List UInt8) : Nat := (src.takeWhile (· ≠ 0)).length

theorem strlen_of_ne_zero {src : List UInt8} (hsrc : ∀ char ∈ src, char ≠ 0) :
    strlen src = src.length := by
  have hall : src.takeWhile (· ≠ 0) = src :=
    List.takeWhile_eq_self_iff.mpr fun char hchar => decide_eq_true (hsrc char hchar)
  rw [strlen, hall]

theorem strlen_le (src : List UInt8) : strlen src ≤ src.length :=
  (List.takeWhile_prefix _).length_le

/-- A `size_t` passed as an `int`. -/
def toInt (size : Nat) : Int := (size : Int).bmod (2 ^ 32)

theorem toInt_of_lt {size : Nat} (hlt : size < 2 ^ 31) : toInt size = size :=
  Int.bmod_eq_of_le (by omega) (by omega)

theorem toInt_lt (size : Nat) : toInt size < 2 ^ 31 := Int.bmod_lt (by decide)

theorem toInt_le (size : Nat) : toInt size ≤ size := by
  change (size : Int).bmod 4294967296 ≤ size
  rw [Int.bmod_def]
  split_ifs <;> omega

theorem toInt_of_ge {size : Nat} (hle : 2 ^ 31 ≤ size) : toInt size ≤ size - 2 ^ 32 := by
  change (size : Int).bmod 4294967296 ≤ size - 2 ^ 32
  rw [Int.bmod_def]
  split_ifs <;> omega

end Libsax.Lib
