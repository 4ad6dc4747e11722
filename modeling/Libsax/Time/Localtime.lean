import Libsax.Lib.Gregorian

/-! `g_localtime`: the fields of a time, whose year is guessed with years of 365 days and
corrected until it is right. -/
namespace Libsax.Time

open Libsax.Lib

def div (a b : Int) : Int := a.tdiv b - if a.tmod b < 0 then 1 else 0

def leapsThruEndOf (y : Int) : Int := div y 4 - div y 100 + div y 400

def isLeapYear (y : Int) : Bool := y.tmod 4 == 0 && (y.tmod 100 != 0 || y.tmod 400 == 0)

/-- `__mon_yday`, how many days come before each month -/
def monYday (leap : Bool) : List Int :=
  if leap then [0, 31, 60, 91, 121, 152, 182, 213, 244, 274, 305, 335, 366]
  else [0, 31, 59, 90, 120, 151, 181, 212, 243, 273, 304, 334, 365]

structure Tm where
  sec : Int
  min : Int
  hour : Int
  mday : Int
  mon : Int
  year : Int
  wday : Int
  yday : Int
  isdst : Int
deriving DecidableEq, Repr

def toInt32 (value : Int) : Int := value.bmod (2 ^ 32)

def borrowDays : Nat → Int → Int → Option (Int × Int)
  | 0, _, _ => none
  | fuel + 1, rem, days =>
    if rem < 0 then borrowDays fuel (rem + 86400) (days - 1) else some (rem, days)

def carryDays : Nat → Int → Int → Option (Int × Int)
  | 0, _, _ => none
  | fuel + 1, rem, days =>
    if rem ≥ 86400 then carryDays fuel (rem - 86400) (days + 1) else some (rem, days)

/-- A corrected year, assuming 365 days per year. -/
def guess (y days : Int) : Int := y + days.tdiv 365 - if days.tmod 365 < 0 then 1 else 0

/-- `days`, adjusted to the guessed year -/
def adjusted (y yg days : Int) : Int :=
  days - ((yg - y) * 365 + leapsThruEndOf (yg - 1) - leapsThruEndOf (y - 1))

/-- The loop over the years, with the days and the year that it leaves. -/
def yearLoop : Nat → Int → Int → Option (Int × Int)
  | 0, _, _ => none
  | fuel + 1, days, y =>
    if days < 0 ∨ days ≥ (if isLeapYear y then 366 else 365) then
      let yg := guess y days
      yearLoop fuel (adjusted y yg days) yg
    else some (days, y)

/-- `for (y = 11; days < ip[y]; --y)`; `none` stands for a read in front of the table. -/
def monthLoop (ip : List Int) (days : Int) : Nat → Option Nat
  | 0 => if days < ip.getD 0 0 then none else some 0
  | y + 1 => if days < ip.getD (y + 1) 0 then monthLoop ip days y else some (y + 1)

/-- `g_localtime`. Of its sums only that of `rem` and the offset can leave 64 bits. Each loop
comes closer to its end, so its variable bounds its rounds. -/
def gLocaltime (sec offset : Int) : Option Tm := do
  let days := sec.tdiv 86400
  let rem := sec.tmod 86400 + offset
  if rem < -2 ^ 63 ∨ rem ≥ 2 ^ 63 then none
  else do
    let (rem, days) ← borrowDays (rem.natAbs + 1) rem days
    let (rem, days) ← carryDays (rem.natAbs + 1) rem days
    let hour := rem.tdiv 3600
    let rem := rem.tmod 3600
    let wday := (4 + days).tmod 7
    let wday := if wday < 0 then wday + 7 else wday
    let (days, y) ← yearLoop (days.natAbs + 400) days 1970
    let ip := monYday (isLeapYear y)
    let mon ← monthLoop ip days 11
    some
      { sec := rem.tmod 60
        min := rem.tdiv 60
        hour := hour
        mday := days - ip.getD mon 0 + 1
        mon := mon
        year := toInt32 (y - 1900)
        wday := wday
        yday := days
        isdst := 0 }

/-- The year of a time is one that `tm_year` can hold. -/
def YearFits (time : Int) : Prop :=
  ∃ year : Int, -2 ^ 31 ≤ year - 1900 ∧ year - 1900 < 2 ^ 31 ∧
    86400 * Gregorian.startOfYear year ≤ time ∧ time < 86400 * Gregorian.startOfYear (year + 1)

/-- The fields are those of a time, by the proleptic Gregorian calendar. -/
structure Civil (time : Int) (tm : Tm) : Prop where
  sec : 0 ≤ tm.sec ∧ tm.sec ≤ 59
  min : 0 ≤ tm.min ∧ tm.min ≤ 59
  hour : 0 ≤ tm.hour ∧ tm.hour ≤ 23
  mon : 0 ≤ tm.mon ∧ tm.mon ≤ 11
  mday : 1 ≤ tm.mday ∧
    tm.mday ≤ Gregorian.monthLength (Gregorian.isLeap (tm.year + 1900)) tm.mon.toNat
  yday : 0 ≤ tm.yday ∧ tm.yday < Gregorian.yearLength (tm.year + 1900)
  yday_eq : tm.yday =
    Gregorian.daysBefore (Gregorian.isLeap (tm.year + 1900)) tm.mon.toNat + (tm.mday - 1)
  wday : tm.wday = Gregorian.weekday (time / 86400)
  time : 86400 * Gregorian.dayNumber (tm.year + 1900) tm.mon.toNat tm.mday +
    3600 * tm.hour + 60 * tm.min + tm.sec = time

private theorem div_eq (a : Int) {b : Int} (hb : 0 < b) : div a b = a / b := by
  have hsign := Int.sign_eq_one_of_pos hb
  have hbelow := Int.emod_lt_of_pos a hb
  have habove := Int.emod_nonneg a (Int.ne_of_gt hb)
  unfold div
  rw [Int.tdiv_eq_ediv, Int.tmod_eq_emod, hsign]
  by_cases hexact : 0 ≤ a ∨ b ∣ a
  · rw [if_pos hexact, if_pos hexact, if_neg (by omega)]
    omega
  · rw [if_neg hexact, if_neg hexact, if_pos (by omega)]
    omega

@[simp] theorem leapsThruEndOf_eq (y : Int) : leapsThruEndOf y = Gregorian.leaps y := by
  unfold leapsThruEndOf Gregorian.leaps
  rw [div_eq y (by decide), div_eq y (by decide), div_eq y (by decide)]

@[simp] theorem isLeapYear_eq (y : Int) : isLeapYear y = Gregorian.isLeap y := by
  have hzero : ∀ b : Int, y.tmod b = 0 ↔ y % b = 0 := fun b => by
    rw [← Int.dvd_iff_tmod_eq_zero, Int.dvd_iff_emod_eq_zero]
  have hdecide : ∀ b : Int, (y.tmod b == 0) = decide (y % b = 0) := fun b => by
    rw [Bool.eq_iff_iff, beq_iff_eq, decide_eq_true_iff, hzero]
  unfold isLeapYear Gregorian.isLeap
  rw [bne, hdecide, hdecide, hdecide, decide_not]

theorem guess_eq (y days : Int) : guess y days = y + days / 365 := by
  have hdiv := div_eq days (show (0 : Int) < 365 by decide)
  unfold div at hdiv
  unfold guess
  omega

theorem adjusted_eq (y yg days : Int) :
    Gregorian.startOfYear yg + adjusted y yg days = Gregorian.startOfYear y + days := by
  unfold adjusted
  rw [leapsThruEndOf_eq, leapsThruEndOf_eq, Gregorian.startOfYear_eq, Gregorian.startOfYear_eq]
  omega

private theorem borrowDays_spec {fuel : Nat} {rem days : Int} (hfuel : (-rem).toNat < fuel) :
    ∃ rem' days', borrowDays fuel rem days = some (rem', days') ∧ 0 ≤ rem' ∧
      86400 * days' + rem' = 86400 * days + rem := by
  induction fuel generalizing rem days with
  | zero => exact absurd hfuel (Nat.not_lt_zero _)
  | succ fuel ih =>
    rw [borrowDays]
    split_ifs with hneg
    · obtain ⟨rem', days', hloop, hnonneg, hsame⟩ := @ih (rem + 86400) (days - 1) (by omega)
      exact ⟨rem', days', hloop, hnonneg, by omega⟩
    · exact ⟨rem, days, rfl, Int.not_lt.mp hneg, rfl⟩

private theorem carryDays_spec {fuel : Nat} {rem days : Int} (hfuel : rem.toNat < fuel)
    (hrem : 0 ≤ rem) :
    ∃ rem' days', carryDays fuel rem days = some (rem', days') ∧ 0 ≤ rem' ∧ rem' < 86400 ∧
      86400 * days' + rem' = 86400 * days + rem := by
  induction fuel generalizing rem days with
  | zero => exact absurd hfuel (Nat.not_lt_zero _)
  | succ fuel ih =>
    rw [carryDays]
    split_ifs with hlong
    · obtain ⟨rem', days', hloop, hnonneg, hlt, hsame⟩ :=
        @ih (rem - 86400) (days + 1) (by omega) (by omega)
      exact ⟨rem', days', hloop, hnonneg, hlt, by omega⟩
    · exact ⟨rem, days, rfl, hrem, Int.not_le.mp hlong, rfl⟩

/-- How far the days are from those of a year. -/
def distance (days : Int) : Nat := if days < 0 then days.natAbs + 368 else days.natAbs

theorem distance_adjusted {y days : Int} (hout : days < 0 ∨ days ≥ Gregorian.yearLength y) :
    distance (adjusted y (guess y days) days) < distance days := by
  have hlength := Gregorian.yearLength_eq y
  obtain ⟨q, hq⟩ : ∃ q, days / 365 = q := ⟨_, rfl⟩
  have hguess : guess y days = y + q := by rw [guess_eq, hq]
  have hadjusted : adjusted y (y + q) days = days - 365 * q -
      (Gregorian.leaps (y + q - 1) - Gregorian.leaps (y - 1)) := by
    unfold adjusted
    rw [leapsThruEndOf_eq, leapsThruEndOf_eq]
    omega
  rw [hguess, hadjusted]
  rcases lt_trichotomy q 1 with hlt | rfl | hlt
  · -- a day of the year itself is no reason to go on, so the guess is an earlier year
    have hneg : days < 0 := by
      have hyear := Gregorian.leaps_bounds (show y - 1 ≤ y by omega)
      omega
    have hyear := Gregorian.leaps_bounds (show y + q - 1 ≤ y - 1 by omega)
    unfold distance
    split_ifs <;> omega
  · have hyear := Gregorian.leaps_bounds (show y - 1 ≤ y by omega)
    have hnext : y + 1 - 1 = y := by omega
    rw [hnext]
    unfold distance
    split_ifs <;> omega
  · have hyear := Gregorian.leaps_bounds (show y - 1 ≤ y + q - 1 by omega)
    unfold distance
    split_ifs <;> omega

theorem yearLoop_spec {fuel : Nat} {days y : Int} (hfuel : distance days < fuel) :
    ∃ days' y', yearLoop fuel days y = some (days', y') ∧ 0 ≤ days' ∧
      days' < Gregorian.yearLength y' ∧
      Gregorian.startOfYear y' + days' = Gregorian.startOfYear y + days := by
  induction fuel generalizing days y with
  | zero => exact absurd hfuel (Nat.not_lt_zero _)
  | succ fuel ih =>
    have hlength : (if isLeapYear y then (366 : Int) else 365) = Gregorian.yearLength y := by
      rw [isLeapYear_eq]
      rfl
    rw [yearLoop, hlength]
    split_ifs with hout
    · have hless := distance_adjusted hout
      obtain ⟨days', y', hloop, hnonneg, hlt, hsame⟩ :=
        @ih (adjusted y (guess y days) days) (guess y days) (by omega)
      exact ⟨days', y', hloop, hnonneg, hlt, hsame.trans (adjusted_eq _ _ _)⟩
    · obtain ⟨hnonneg, hlt⟩ := not_or.mp hout
      exact ⟨days, y, rfl, Int.not_lt.mp hnonneg, Int.not_le.mp hlt, rfl⟩

theorem monYday_eq (leap : Bool) {month : Nat} (hmonth : month ≤ 12) :
    (monYday leap).getD month 0 = Gregorian.daysBefore leap month := by
  cases leap
  all_goals
    interval_cases month
    all_goals rfl

theorem monthLoop_spec (leap : Bool) {days : Int} (hdays : 0 ≤ days) {n : Nat} (hn : n ≤ 11)
    (hlt : days < Gregorian.daysBefore leap (n + 1)) :
    ∃ m ≤ n, monthLoop (monYday leap) days n = some m ∧ Gregorian.daysBefore leap m ≤ days ∧
      days < Gregorian.daysBefore leap (m + 1) := by
  induction n with
  | zero =>
    have hfirst : ¬ days < (monYday leap).getD 0 0 := by
      rw [monYday_eq leap (Nat.zero_le _)]
      exact Int.not_lt.mpr hdays
    rw [monthLoop, if_neg hfirst]
    exact ⟨0, le_refl 0, rfl, hdays, hlt⟩
  | succ n ih =>
    rw [monthLoop, monYday_eq leap (by omega)]
    split_ifs with hbefore
    · obtain ⟨m, hm, hloop, hle, hend⟩ := ih (by omega) hbefore
      exact ⟨m, Nat.le_succ_of_le hm, hloop, hle, hend⟩
    · exact ⟨n + 1, le_refl _, rfl, Int.not_lt.mp hbefore, hlt⟩

theorem yearLength_bounds (year : Int) :
    365 ≤ Gregorian.yearLength year ∧ Gregorian.yearLength year ≤ 366 := by
  unfold Gregorian.yearLength
  split_ifs <;> decide

private theorem startOfYear_mono {first last : Int} (hle : first ≤ last) :
    Gregorian.startOfYear first ≤ Gregorian.startOfYear last := by
  have hbounds := Gregorian.leaps_bounds (show first - 1 ≤ last - 1 by omega)
  rw [Gregorian.startOfYear_eq, Gregorian.startOfYear_eq]
  omega

theorem year_unique {day first last : Int} (hfirst : Gregorian.startOfYear first ≤ day)
    (hfirst' : day < Gregorian.startOfYear (first + 1)) (hlast : Gregorian.startOfYear last ≤ day)
    (hlast' : day < Gregorian.startOfYear (last + 1)) : first = last := by
  rcases lt_trichotomy first last with hlt | heq | hlt
  · have hmono := startOfYear_mono (show first + 1 ≤ last by omega)
    omega
  · exact heq
  · have hmono := startOfYear_mono (show last + 1 ≤ first by omega)
    omega

theorem monthLength_eq (leap : Bool) (month : Nat) : Gregorian.daysBefore leap (month + 1) =
    Gregorian.daysBefore leap month + Gregorian.monthLength leap month := rfl

theorem daysBefore_year (year : Int) :
    Gregorian.daysBefore (Gregorian.isLeap year) 12 = Gregorian.yearLength year := by
  unfold Gregorian.yearLength
  cases Gregorian.isLeap year <;> rfl

theorem toInt32_of_fits {value : Int} (hlow : -2 ^ 31 ≤ value) (hhigh : value < 2 ^ 31) :
    toInt32 value = value := by
  unfold toInt32
  apply Int.bmod_eq_of_le <;> omega

theorem yearFits_bounds {time : Int} (hfits : YearFits time) :
    -2 ^ 57 < time ∧ time < 2 ^ 57 := by
  obtain ⟨year, hlow, hhigh, hstart, hend⟩ := hfits
  rw [Gregorian.startOfYear_eq] at hstart hend
  unfold Gregorian.leaps at hstart hend
  omega

private theorem wday_eq (days : Int) :
    (if (4 + days).tmod 7 < 0 then (4 + days).tmod 7 + 7 else (4 + days).tmod 7) =
      Gregorian.weekday days := by
  unfold Gregorian.weekday
  rw [Int.tmod_eq_emod]
  split_ifs <;> omega

theorem tmod_day (sec : Int) : -86400 < sec.tmod 86400 ∧ sec.tmod 86400 < 86400 ∧
    (0 ≤ sec → 0 ≤ sec.tmod 86400) ∧ (sec ≤ 0 → sec.tmod 86400 ≤ 0) := by
  rw [Int.tmod_eq_emod]
  split_ifs <;> omega

theorem timeOfDay {rem : Int} (hnonneg : 0 ≤ rem) (hlt : rem < 86400) :
    (0 ≤ (rem.tmod 3600).tmod 60 ∧ (rem.tmod 3600).tmod 60 ≤ 59) ∧
      (0 ≤ (rem.tmod 3600).tdiv 60 ∧ (rem.tmod 3600).tdiv 60 ≤ 59) ∧
      (0 ≤ rem.tdiv 3600 ∧ rem.tdiv 3600 ≤ 23) ∧
      3600 * rem.tdiv 3600 + 60 * (rem.tmod 3600).tdiv 60 + (rem.tmod 3600).tmod 60 = rem := by
  rw [Int.tmod_eq_emod_of_nonneg hnonneg, Int.tdiv_eq_ediv_of_nonneg hnonneg]
  have hhour := Int.emod_nonneg rem (show (3600 : Int) ≠ 0 by decide)
  rw [Int.tmod_eq_emod_of_nonneg hhour, Int.tdiv_eq_ediv_of_nonneg hhour]
  omega

theorem gLocaltime_eq {sec offset year : Int} (hsec : -2 ^ 63 ≤ sec ∧ sec < 2 ^ 63)
    (hoffset : -2 ^ 63 ≤ offset ∧ offset < 2 ^ 63)
    (hyear : -2 ^ 31 ≤ year - 1900 ∧ year - 1900 < 2 ^ 31) {day rem : Int}
    (htime : sec + offset = 86400 * day + rem) (hrem : 0 ≤ rem ∧ rem < 86400)
    (hstart : Gregorian.startOfYear year ≤ day) (hend : day < Gregorian.startOfYear (year + 1)) :
    ∃ m ≤ 11,
      Gregorian.daysBefore (Gregorian.isLeap year) m ≤ day - Gregorian.startOfYear year ∧
      day - Gregorian.startOfYear year < Gregorian.daysBefore (Gregorian.isLeap year) (m + 1) ∧
      monthLoop (monYday (Gregorian.isLeap year)) (day - Gregorian.startOfYear year) 11 = some m ∧
      gLocaltime sec offset = some
        { sec := (rem.tmod 3600).tmod 60
          min := (rem.tmod 3600).tdiv 60
          hour := rem.tdiv 3600
          mday := day - Gregorian.startOfYear year -
            Gregorian.daysBefore (Gregorian.isLeap year) m + 1
          mon := m
          year := year - 1900
          wday := Gregorian.weekday day
          yday := day - Gregorian.startOfYear year
          isdst := 0 } := by
  have hbounds := @yearFits_bounds (sec + offset) ⟨year, hyear.1, hyear.2, by omega, by omega⟩
  have hparts := Int.mul_tdiv_add_tmod sec 86400
  have hsign := tmod_day sec
  have hfits : ¬(sec.tmod 86400 + offset < -2 ^ 63 ∨ sec.tmod 86400 + offset ≥ 2 ^ 63) := by
    omega
  -- the time of day and the day
  obtain ⟨rem₁, days₁, hborrow, hrem₁, hsame₁⟩ := @borrowDays_spec
    ((sec.tmod 86400 + offset).natAbs + 1) (sec.tmod 86400 + offset) (sec.tdiv 86400) (by omega)
  obtain ⟨rem₂, days₂, hcarry, hrem₂, hrem₂', hsame₂⟩ := @carryDays_spec
    (rem₁.natAbs + 1) rem₁ days₁ (by omega) hrem₁
  obtain ⟨rfl, rfl⟩ : days₂ = day ∧ rem₂ = rem := ⟨by omega, by omega⟩
  -- the year and the day of the year
  have hdistance : distance days₂ < days₂.natAbs + 400 := by
    unfold distance
    split_ifs <;> omega
  obtain ⟨days, y, hyears, hdays, hdays', hsame⟩ := @yearLoop_spec _ days₂ 1970 hdistance
  have hepoch : Gregorian.startOfYear 1970 = 0 := rfl
  have hnext := Gregorian.startOfYear_succ y
  obtain rfl : y = year := @year_unique days₂ y year (by omega) (by omega) hstart hend
  obtain rfl : days = days₂ - Gregorian.startOfYear y := by omega
  have hstored : toInt32 (y - 1900) = y - 1900 := toInt32_of_fits hyear.1 hyear.2
  -- the month and the day of the month
  obtain ⟨m, hm, hmonths, hmonth, hmonth'⟩ := @monthLoop_spec (Gregorian.isLeap y) _ hdays 11
    (le_refl _) (by rw [daysBefore_year]; exact hdays')
  have hip := monYday_eq (Gregorian.isLeap y) (show m ≤ 12 by omega)
  refine ⟨m, hm, hmonth, hmonth', hmonths, ?_⟩
  unfold gLocaltime
  simp only [if_neg hfits, hborrow, hcarry, hyears, isLeapYear_eq, hmonths, hip, wday_eq, hstored,
    Option.bind_eq_bind, Option.bind_some]

theorem yearFits_day {time : Int} (hfits : YearFits time) :
    ∃ year, (-2 ^ 31 ≤ year - 1900 ∧ year - 1900 < 2 ^ 31) ∧
      Gregorian.startOfYear year ≤ time / 86400 ∧
      time / 86400 < Gregorian.startOfYear (year + 1) := by
  obtain ⟨year, hlow, hhigh, hstart, hend⟩ := hfits
  exact ⟨year, ⟨hlow, hhigh⟩, by omega, by omega⟩

/-- `g_localtime` gives the fields of the shifted time, of every year that `tm_year` can hold. -/
theorem gLocaltime_civil {sec offset : Int} (hsec : -2 ^ 63 ≤ sec ∧ sec < 2 ^ 63)
    (hoffset : -2 ^ 63 ≤ offset ∧ offset < 2 ^ 63) (hfits : YearFits (sec + offset)) :
    ∃ tm, gLocaltime sec offset = some tm ∧ Civil (sec + offset) tm := by
  obtain ⟨year, hyear, hstart, hend⟩ := yearFits_day hfits
  have htime := (Int.mul_ediv_add_emod (sec + offset) 86400).symm
  have hrem := Int.emod_nonneg (sec + offset) (show (86400 : Int) ≠ 0 by decide)
  have hrem' := Int.emod_lt_of_pos (sec + offset) (show (0 : Int) < 86400 by decide)
  obtain ⟨m, hm, hmonth, hmonth', -, hfields⟩ :=
    gLocaltime_eq hsec hoffset hyear htime ⟨hrem, hrem'⟩ hstart hend
  obtain ⟨hsecond, hminute, hhour, hclock⟩ := timeOfDay hrem hrem'
  have hback : year - 1900 + 1900 = year := by omega
  rw [monthLength_eq] at hmonth'
  rw [Gregorian.startOfYear_succ] at hend
  refine ⟨_, hfields, ?_⟩
  constructor
  case sec => exact hsecond
  case min => exact hminute
  case hour => exact hhour
  case wday => rfl
  all_goals dsimp only
  case mon => omega
  all_goals rw [hback]
  case yday => omega
  all_goals rw [Int.toNat_natCast]
  case mday => omega
  case yday_eq => omega
  case time =>
    unfold Gregorian.dayNumber
    omega

/-- The last day of February 2000, an hour west of Greenwich. -/
theorem gLocaltime_civil_leap : ∃ tm, gLocaltime 951827696 (-3600) = some tm ∧
    Civil (951827696 + -3600) tm := by
  apply gLocaltime_civil
  · decide
  · decide
  · exact ⟨2000, by decide⟩

example : gLocaltime 951827696 (-3600) = some ⟨56, 34, 11, 29, 1, 100, 2, 59, 0⟩ := by decide

end Libsax.Time
