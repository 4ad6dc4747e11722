import Mathlib.Algebra.Ring.Int.Defs
import Mathlib.Algebra.Ring.Nat
import Mathlib.Tactic.IntervalCases
import Mathlib.Tactic.SplitIfs

/-! The proleptic Gregorian calendar, with days and seconds counted from the start of 1970. -/
namespace Libsax.Lib.Gregorian

def isLeap (year : Int) : Bool :=
  decide (year % 4 = 0) && (decide (year % 100 ≠ 0) || decide (year % 400 = 0))

def yearLength (year : Int) : Int := if isLeap year then 366 else 365

/-- The days of a month, of which the first one is 0. -/
def monthLength (leap : Bool) : Nat → Int
  | 1 => if leap then 29 else 28
  | 3 | 5 | 8 | 10 => 30
  | _ => 31

def daysBefore (leap : Bool) : Nat → Int
  | 0 => 0
  | month + 1 => daysBefore leap month + monthLength leap month

/-- The days from the start of 1970 to that of a later year. -/
def daysAfter : Nat → Int
  | 0 => 0
  | n + 1 => daysAfter n + yearLength (1970 + n)

/-- The days from the start of an earlier year to that of 1970. -/
def daysUntil : Nat → Int
  | 0 => 0
  | n + 1 => daysUntil n + yearLength (1969 - n)

def startOfYear (year : Int) : Int :=
  if 1970 ≤ year then daysAfter (year - 1970).toNat else -daysUntil (1970 - year).toNat

def dayNumber (year : Int) (month : Nat) (mday : Int) : Int :=
  startOfYear year + daysBefore (isLeap year) month + (mday - 1)

/-- Sunday is 0; the first of January 1970 was a Thursday. -/
def weekday (day : Int) : Int := (day + 4) % 7

/-- The leap years up to the end of a year, counted from the year 0 on. -/
def leaps (year : Int) : Int := year / 4 - year / 100 + year / 400

private theorem isLeap_iff (year : Int) :
    isLeap year = true ↔ year % 4 = 0 ∧ (year % 100 ≠ 0 ∨ year % 400 = 0) := by
  simp only [isLeap, Bool.and_eq_true, Bool.or_eq_true, decide_eq_true_eq]

theorem monthLength_le (leap : Bool) (month : Nat) : monthLength leap month ≤ 31 := by
  unfold monthLength
  split
  · cases leap <;> decide
  all_goals decide

theorem yearLength_eq (year : Int) : yearLength year = 365 + (leaps year - leaps (year - 1)) := by
  unfold yearLength leaps
  split_ifs with hleap
  · rw [isLeap_iff] at hleap
    omega
  · rw [isLeap_iff] at hleap
    omega

theorem startOfYear_eq (year : Int) :
    startOfYear year = 365 * (year - 1970) + (leaps (year - 1) - leaps 1969) := by
  have hafter : ∀ n : Nat,
      daysAfter n = 365 * (n : Int) + (leaps (1970 + n - 1) - leaps 1969) := by
    intro n
    induction n with
    | zero => rfl
    | succ n ih =>
      have hyear : (1970 : Int) + ((n + 1 : Nat) : Int) - 1 = 1970 + n := by omega
      rw [daysAfter, ih, yearLength_eq, hyear]
      omega
  have huntil : ∀ n : Nat,
      daysUntil n = 365 * (n : Int) + (leaps 1969 - leaps (1970 - n - 1)) := by
    intro n
    induction n with
    | zero => rfl
    | succ n ih =>
      have hyear : (1970 : Int) - ((n + 1 : Nat) : Int) - 1 = 1969 - n - 1 := by omega
      have hprev : (1970 : Int) - n - 1 = 1969 - n := by omega
      rw [daysUntil, ih, yearLength_eq, hyear, hprev]
      omega
  unfold startOfYear
  split_ifs with hyear
  · have hcount : ((year - 1970).toNat : Int) = year - 1970 := Int.toNat_of_nonneg (by omega)
    have hprev : 1970 + (year - 1970) - 1 = year - 1 := by omega
    rw [hafter, hcount, hprev]
  · have hcount : ((1970 - year).toNat : Int) = 1970 - year := Int.toNat_of_nonneg (by omega)
    have hprev : 1970 - (1970 - year) - 1 = year - 1 := by omega
    rw [huntil, hcount, hprev]
    omega

theorem startOfYear_succ (year : Int) :
    startOfYear (year + 1) = startOfYear year + yearLength year := by
  have hprev : year + 1 - 1 = year := by omega
  rw [startOfYear_eq, startOfYear_eq, yearLength_eq, hprev]
  omega

theorem leaps_bounds {first last : Int} (hle : first ≤ last) :
    leaps first ≤ leaps last ∧ 400 * (leaps last - leaps first) ≤ 97 * (last - first) + 1200 := by
  unfold leaps
  omega

end Libsax.Lib.Gregorian
