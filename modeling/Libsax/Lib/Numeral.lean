import Mathlib.Data.Nat.Digits.Lemmas
import Mathlib.Data.Option.Basic
import Mathlib.Tactic.SplitIfs

/-! Numerals: the digits of a number, the most significant first, in some alphabet. -/
namespace Libsax.Lib

/-- The characters of the digits below a base. -/
structure Alphabet (base : Nat) where
  char : Nat → UInt8
  digit : UInt8 → Option Nat
  one_lt : 1 < base
  digit_char : ∀ d < base, digit (char d) = some d
  char_digit : ∀ {c d}, digit c = some d → d < base ∧ char d = c

/-- The digits of a number, the least significant first; zero has one. -/
def lowFirst (base n : Nat) : List Nat :=
  if n = 0 then [0] else Nat.digits base n

namespace Alphabet

variable {base : Nat} (alphabet : Alphabet base)

def numeral (n : Nat) : List UInt8 := (lowFirst base n).reverse.map alphabet.char

/-- The number of a text of digits, of which there has to be one. -/
def parse (text : List UInt8) : Option Nat :=
  if text = [] then none
  else text.foldl (fun sum c => do return base * (← sum) + (← alphabet.digit c)) (some 0)

/-- Digits only, at least one, and no zero in front of others. -/
def Canonical (text : List UInt8) : Prop :=
  text ≠ [] ∧ (∀ c ∈ text, (alphabet.digit c).isSome) ∧
    (text.head? = some (alphabet.char 0) → text.length = 1)

end Alphabet

variable {base n : Nat}

theorem lowFirst_eq (hbase : 1 < base) (n : Nat) :
    lowFirst base n = n % base :: if n / base = 0 then [] else lowFirst base (n / base) := by
  unfold lowFirst
  by_cases hzero : n = 0
  · subst hzero
    simp
  · rw [if_neg hzero, Nat.digits_def' hbase (Nat.pos_of_ne_zero hzero)]
    congr 1
    by_cases hsmall : n / base = 0
    · rw [if_pos hsmall, hsmall, Nat.digits_zero]
    · rw [if_neg hsmall, if_neg hsmall]

theorem lowFirst_ne_nil (base n : Nat) : lowFirst base n ≠ [] := by
  unfold lowFirst
  split_ifs with hzero
  · exact List.cons_ne_nil _ _
  · exact Nat.digits_ne_nil_iff_ne_zero.mpr hzero

private theorem lt_of_mem_lowFirst (hbase : 1 < base) {d : Nat} (hd : d ∈ lowFirst base n) :
    d < base := by
  unfold lowFirst at hd
  split_ifs at hd
  · rw [List.mem_singleton.mp hd]
    omega
  · exact Nat.digits_lt_base hbase hd

@[simp] private theorem ofDigits_lowFirst (base n : Nat) : Nat.ofDigits base
    (lowFirst base n) = n := by
  unfold lowFirst
  split_ifs with hzero
  · rw [hzero]
    rfl
  · exact Nat.ofDigits_digits base n

theorem lowFirst_length_le (hbase : 1 < base) {k : Nat} (hpos : 0 < k) (hlt : n < base ^ k) :
    (lowFirst base n).length ≤ k := by
  unfold lowFirst
  split_ifs
  · exact hpos
  · exact (Nat.digits_length_le_iff hbase n).mpr hlt

private theorem lowFirst_getLast (hlast : (lowFirst base n).getLast? = some 0) :
    (lowFirst base n).length = 1 := by
  unfold lowFirst at hlast ⊢
  split_ifs at hlast ⊢ with hzero
  · rfl
  · have hne := Nat.getLast_digit_ne_zero base hzero
    rw [List.getLast?_eq_getLast_of_ne_nil (Nat.digits_ne_nil_iff_ne_zero.mpr hzero)] at hlast
    exact absurd (Option.some.inj hlast) hne

namespace Alphabet

variable (alphabet : Alphabet base)

private theorem foldl_digits {digits : List Nat} (hdigits : ∀ d ∈ digits, d < base) :
    (digits.reverse.map alphabet.char).foldl
        (fun sum c => do return base * (← sum) + (← alphabet.digit c)) (some 0) =
      some (Nat.ofDigits base digits) := by
  induction digits with
  | nil => rfl
  | cons d digits ih =>
    rw [List.reverse_cons, List.map_append, List.foldl_append,
      ih fun other hother => hdigits other (List.mem_cons_of_mem d hother)]
    simp [alphabet.digit_char d (hdigits d List.mem_cons_self), Nat.ofDigits_cons, Nat.add_comm]

private theorem numeral_ne_nil (n : Nat) : alphabet.numeral n ≠ [] := by
  simp [numeral, lowFirst_ne_nil]

theorem numeral_length (n : Nat) : (alphabet.numeral n).length =
    (lowFirst base n).length := by
  simp [numeral]

@[simp] theorem parse_numeral (n : Nat) : alphabet.parse (alphabet.numeral n) = some n := by
  rw [parse, if_neg (alphabet.numeral_ne_nil n), numeral,
    alphabet.foldl_digits fun _ => lt_of_mem_lowFirst alphabet.one_lt, ofDigits_lowFirst]

theorem canonical_numeral (n : Nat) : alphabet.Canonical (alphabet.numeral n) := by
  refine ⟨alphabet.numeral_ne_nil n, ?_, ?_⟩
  · intro c hc
    rw [numeral, List.mem_map] at hc
    obtain ⟨d, hd, rfl⟩ := hc
    have hlt := lt_of_mem_lowFirst alphabet.one_lt (List.mem_reverse.mp hd)
    rw [alphabet.digit_char d hlt]
    rfl
  · intro hhead
    rw [alphabet.numeral_length]
    apply lowFirst_getLast
    rw [numeral, List.head?_map, List.head?_reverse, Option.map_eq_some_iff] at hhead
    obtain ⟨d, hlast, hchar⟩ := hhead
    have hlt := lt_of_mem_lowFirst alphabet.one_lt (List.mem_of_getLast? hlast)
    have hzero := alphabet.digit_char 0 (Nat.zero_lt_of_lt alphabet.one_lt)
    rw [← hchar, alphabet.digit_char d hlt] at hzero
    rw [hlast, Option.some.inj hzero]

private theorem exists_digits {text : List UInt8} (htext : ∀ c ∈ text, (alphabet.digit c).isSome) :
    ∃ digits : List Nat, (∀ d ∈ digits, d < base) ∧ text = digits.map alphabet.char := by
  induction text with
  | nil => exact ⟨[], by simp, rfl⟩
  | cons c text ih =>
    obtain ⟨digits, hdigits, hmap⟩ := ih fun other hother =>
      htext other (List.mem_cons_of_mem c hother)
    obtain ⟨d, hd⟩ := Option.isSome_iff_exists.mp (htext c List.mem_cons_self)
    obtain ⟨hlt, hchar⟩ := alphabet.char_digit hd
    refine ⟨d :: digits, ?_, by rw [hmap, List.map_cons, hchar]⟩
    intro other hother
    rcases List.mem_cons.mp hother with rfl | hrest
    · exact hlt
    · exact hdigits other hrest

theorem numeral_of_canonical {text : List UInt8} (hcanonical : alphabet.Canonical text)
    (hparse : alphabet.parse text = some n) : text = alphabet.numeral n := by
  obtain ⟨hne, htext, hlead⟩ := hcanonical
  obtain ⟨digits, hdigits, rfl⟩ := alphabet.exists_digits htext
  rw [parse, if_neg hne, ← List.reverse_reverse digits, alphabet.foldl_digits
    fun d hd => hdigits d (List.mem_reverse.mp hd), Option.some_inj] at hparse
  have hlow : digits.reverse = lowFirst base n := by
    unfold lowFirst
    by_cases hhead : digits.head? = some 0
    · have hone : digits.length = 1 := by
        rw [← List.length_map alphabet.char]
        apply hlead
        rw [List.head?_map, hhead]
        rfl
      obtain ⟨d, rfl⟩ := List.length_eq_one_iff.mp hone
      obtain rfl : d = 0 := by simpa using hhead
      rw [← hparse]
      rfl
    · have hdigitsne : digits ≠ [] := fun hnil => hne (by rw [hnil]; rfl)
      have hback := Nat.digits_ofDigits base alphabet.one_lt digits.reverse
        (fun d hd => hdigits d (List.mem_reverse.mp hd)) (fun hnil hzero => hhead (by
          rw [← List.getLast?_reverse, List.getLast?_eq_getLast_of_ne_nil hnil, hzero]))
      rw [hparse] at hback
      have hpos : n ≠ 0 := by
        rintro rfl
        rw [Nat.digits_zero] at hback
        exact hdigitsne (List.reverse_eq_nil_iff.mp hback.symm)
      rw [if_neg hpos, hback]
  rw [numeral, ← hlow, List.reverse_reverse]

end Alphabet

end Libsax.Lib
