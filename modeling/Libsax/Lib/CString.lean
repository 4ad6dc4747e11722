import Mathlib.Algebra.Ring.Nat
import Mathlib.Logic.Function.Basic
import Mathlib.Tactic.SplitIfs

/-! Strings that end at a zero, in memory that is read and written byte by byte. -/
namespace Libsax.Lib

/-- A string without the zero behind it. -/
structure CString where
  chars : List UInt8
  chars_ne_zero : ∀ char ∈ chars, char ≠ 0

abbrev Memory := Nat → UInt8

namespace Memory

def putAll (memory : Memory) (i : Nat) : List UInt8 → Memory
  | [] => memory
  | byte :: rest => putAll (Function.update memory i byte) (i + 1) rest

/-- The string at a place, as far as it lies in the next `limit` bytes. -/
def string (memory : Memory) : Nat → Nat → List UInt8
  | 0, _ => []
  | limit + 1, i => if memory i = 0 then [] else memory i :: string memory limit (i + 1)

def At (memory : Memory) (i : Nat) : List UInt8 → Prop
  | [] => True
  | byte :: rest => memory i = byte ∧ At memory (i + 1) rest

def read (memory : Memory) : Nat → Nat → List UInt8
  | 0, _ => []
  | n + 1, i => memory i :: read memory n (i + 1)

/-- The first bytes hold the whole string, with its zero. -/
def Holds (memory : Memory) (size : Nat) (text : List UInt8) : Prop :=
  text.length < size ∧ memory.string size 0 = text

variable {memory other : Memory} {i j limit size : Nat} {text front bytes : List UInt8}

theorem putAll_of_lt (hlt : j < i) : memory.putAll i bytes j = memory j := by
  induction bytes generalizing memory i with
  | nil => rfl
  | cons byte rest ih =>
    rw [putAll, ih (Nat.lt_succ_of_lt hlt), Function.update_of_ne (Nat.ne_of_lt hlt)]

theorem putAll_of_le (hle : i + bytes.length ≤ j) : memory.putAll i bytes j = memory j := by
  induction bytes generalizing memory i with
  | nil => rfl
  | cons byte rest ih =>
    rw [List.length_cons] at hle
    rw [putAll, ih (by omega), Function.update_of_ne (by omega)]

theorem putAll_append (memory : Memory) (i : Nat) (left right : List UInt8) :
    memory.putAll i (left ++ right) = (memory.putAll i left).putAll (i + left.length) right := by
  induction left generalizing memory i with
  | nil => rfl
  | cons byte left ih =>
    have hlength : i + (byte :: left).length = i + 1 + left.length := by
      rw [List.length_cons]
      omega
    rw [List.cons_append, putAll, putAll, ih, hlength]

theorem putAll_update {byte : UInt8} (houtside : j < i ∨ i + bytes.length ≤ j) :
    putAll (Function.update memory j byte) i bytes =
      Function.update (memory.putAll i bytes) j byte := by
  induction bytes generalizing memory i with
  | nil => rfl
  | cons first rest ih =>
    rw [List.length_cons] at houtside
    rw [putAll, putAll, Function.update_comm (by omega), ih (by omega)]

theorem at_putAll (memory : Memory) (i : Nat) (bytes : List UInt8) :
    (memory.putAll i bytes).At i bytes := by
  induction bytes generalizing memory i with
  | nil => trivial
  | cons byte rest ih =>
    constructor
    · rw [putAll, putAll_of_lt (Nat.lt_succ_self i), Function.update_self]
    · exact ih _ _

theorem at_congr (hsame : ∀ j, i ≤ j → j < i + bytes.length → other j = memory j)
    (hat : memory.At i bytes) : other.At i bytes := by
  induction bytes generalizing i with
  | nil => trivial
  | cons byte rest ih =>
    rw [List.length_cons] at hsame
    constructor
    · rw [hsame i (le_refl i) (by omega)]
      exact hat.1
    · apply ih _ hat.2
      intro j hle hlt
      exact hsame j (by omega) (by omega)

@[simp] theorem at_append {right : List UInt8} :
    memory.At i (front ++ right) ↔ memory.At i front ∧ memory.At (i + front.length) right := by
  induction front generalizing i with
  | nil => exact (iff_of_eq (true_and _)).symm
  | cons byte front ih =>
    have hlength : i + (byte :: front).length = i + 1 + front.length := by
      rw [List.length_cons]
      omega
    rw [List.cons_append, At, At, ih, hlength, and_assoc]

theorem read_of_at (hat : memory.At i bytes) : memory.read bytes.length i = bytes := by
  induction bytes generalizing i with
  | nil => rfl
  | cons byte rest ih => rw [List.length_cons, read, hat.1, ih hat.2]

theorem at_string (memory : Memory) (limit i : Nat) :
    memory.At i (memory.string limit i) := by
  induction limit generalizing i with
  | zero => trivial
  | succ limit ih =>
    rw [string]
    split_ifs
    · trivial
    · exact ⟨rfl, ih _⟩

theorem string_ne_zero (memory : Memory) (limit i : Nat) :
    ∀ char ∈ memory.string limit i, char ≠ 0 := by
  induction limit generalizing i with
  | zero => exact fun char hchar => absurd hchar List.not_mem_nil
  | succ limit ih =>
    rw [string]
    split_ifs with hzero
    · exact fun char hchar => absurd hchar List.not_mem_nil
    · intro char hchar
      rcases List.mem_cons.mp hchar with rfl | hrest
      · exact hzero
      · exact ih _ char hrest

theorem string_length_le (memory : Memory) (limit i : Nat) :
    (memory.string limit i).length ≤ limit := by
  induction limit generalizing i with
  | zero => exact le_refl 0
  | succ limit ih =>
    rw [string]
    split_ifs
    · exact Nat.zero_le _
    · exact Nat.succ_le_succ (ih _)

theorem string_of_at (hat : memory.At i (text ++ [0])) (htext : ∀ char ∈ text, char ≠ 0)
    (hlength : text.length < limit) : memory.string limit i = text := by
  induction text generalizing i limit with
  | nil =>
    obtain ⟨limit, rfl⟩ := Nat.exists_eq_add_one.mpr hlength
    rw [string, if_pos hat.1]
  | cons char text ih =>
    obtain ⟨limit, rfl⟩ := Nat.exists_eq_add_one.mpr (Nat.zero_lt_of_lt hlength)
    have hchar : memory i ≠ 0 := by
      rw [hat.1]
      exact htext char List.mem_cons_self
    rw [string, if_neg hchar, hat.1,
      ih hat.2 (fun other hother => htext other (List.mem_cons_of_mem _ hother))
        (Nat.lt_of_succ_lt_succ hlength)]

/-- A text was stored at the front, and nothing behind it. -/
structure Stored (memory other : Memory) (text : List UInt8) : Prop where
  front : other.At 0 text
  behind : ∀ i, text.length ≤ i → other i = memory i

theorem stored_nil (memory : Memory) : Stored memory memory [] := ⟨trivial, fun _ _ => rfl⟩

theorem Stored.putAll {back more : List UInt8} (hstored : Stored memory other (front ++ back))
    (hlength : back.length ≤ more.length) :
    Stored memory (other.putAll front.length more) (front ++ more) := by
  constructor
  · apply at_append.mpr
    constructor
    · apply at_congr _ (at_append.mp hstored.front).1
      intro j _ hlt
      rw [putAll_of_lt (by omega)]
    · rw [Nat.zero_add]
      exact at_putAll _ _ _
  · intro i hi
    rw [List.length_append] at hi
    rw [putAll_of_le hi]
    apply hstored.behind
    rw [List.length_append]
    omega

end Memory

end Libsax.Lib
