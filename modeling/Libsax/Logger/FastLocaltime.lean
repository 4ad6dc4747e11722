import Libsax.Time.Localtime

/-! `fast_localtime`, the conversion of the logger: that of `g_localtime` without its loops over the
days, and with the year in an `int`. -/
namespace Libsax.Logger

open Libsax.Lib Libsax.Time

/-- The `do` loop over the years, with the days and the year that it leaves. A round reads `y - 1`
as an `int`. -/
def fastYearLoop : Nat → Int → Int → Option (Int × Int)
  | 0, _, _ => none
  | fuel + 1, days, y =>
    if y - 1 < -2 ^ 31 then none
    else
      let yg := guess y days
      let days := adjusted y yg days
      let y := toInt32 yg
      if days < 0 ∨ days ≥ (if isLeapYear y then 366 else 365) then fastYearLoop fuel days y
      else some (days, y)

/-- `fast_localtime`, which sets six of the fields; `none` also stands for a sum that overflows. -/
def fastLocaltime (fuel : Nat) (tzOffset unixSec : Int) (st : Tm) : Option Tm := do
  let unixSec := unixSec + tzOffset
  if unixSec < -2 ^ 63 ∨ unixSec ≥ 2 ^ 63 then none
  else do
    let days := unixSec.tdiv 86400
    let rem := unixSec.tmod 86400
    let hour := rem.tdiv 3600
    let rem := rem.tmod 3600
    let (days, y) ← fastYearLoop fuel days 1970
    if y - 1900 < -2 ^ 31 then none
    else do
      let ip := monYday (isLeapYear y)
      let mon ← monthLoop ip days 11
      some
        { st with
          hour := hour
          min := rem.tdiv 60
          sec := rem.tmod 60
          year := y - 1900
          mon := mon
          mday := days - ip.getD mon 0 + 1 }

/-- Two records have the same six fields. -/
structure SameClock (st tm : Tm) : Prop where
  year : st.year = tm.year
  mon : st.mon = tm.mon
  mday : st.mday = tm.mday
  hour : st.hour = tm.hour
  min : st.min = tm.min
  sec : st.sec = tm.sec

def Agrees (offset time : Int) : Prop :=
  ∀ st, ∃ fuel fast full, fastLocaltime fuel offset time st = some fast ∧
    gLocaltime time offset = some full ∧ SameClock fast full

/-- The year that is guessed for a day from another year. -/
def yearGuess (day y : Int) : Int := y + (day - Gregorian.startOfYear y) / 365

/-- How many leap years there are from one year on before another. -/
def leapsBetween (first last : Int) : Int :=
  Gregorian.leaps (last - 1) - Gregorian.leaps (first - 1)

/-- The guesses for a day fit an `int`. The first one may also leave it, if there are as many leap
years down to the second one from the year that it turns into, and if the third one fits. -/
def GuessesFit (day : Int) : Prop :=
  let first := yearGuess day 1970
  let second := yearGuess day first
  (-2 ^ 31 < first ∧ first < 2 ^ 31) ∨
    (toInt32 first ≠ -2 ^ 31 ∧
      leapsBetween (toInt32 first + (second - first)) (toInt32 first) =
        leapsBetween second first ∧
      yearGuess day second < 2 ^ 31)

theorem startOfYear_add {first last : Int} (hle : first ≤ last) :
    Gregorian.startOfYear first + 365 * (last - first) ≤ Gregorian.startOfYear last ∧
      400 * (Gregorian.startOfYear last - Gregorian.startOfYear first) ≤
        146097 * (last - first) + 1200 := by
  have hbounds := Gregorian.leaps_bounds (show first - 1 ≤ last - 1 by omega)
  rw [Gregorian.startOfYear_eq, Gregorian.startOfYear_eq]
  omega

private theorem guess_yearGuess (day y : Int) :
    guess y (day - Gregorian.startOfYear y) = yearGuess day y := guess_eq _ _

private theorem adjusted_yearGuess (day y : Int) :
    adjusted y (yearGuess day y) (day - Gregorian.startOfYear y) =
      day - Gregorian.startOfYear (yearGuess day y) := by
  have hsame := adjusted_eq y (yearGuess day y) (day - Gregorian.startOfYear y)
  omega

private theorem yearGuess_antitone (day : Int) {y y' : Int} (hle : y ≤ y') :
    yearGuess day y' ≤ yearGuess day y := by
  have hstart := (startOfYear_add hle).1
  unfold yearGuess
  omega

private theorem yearGuess_early {day year y : Int} (hstart : Gregorian.startOfYear year ≤ day)
    (hle : y ≤ year) : year ≤ yearGuess day y := by
  have hyears := (startOfYear_add hle).1
  unfold yearGuess
  omega

private theorem yearGuess_early_near {day year y : Int}
    (hend : day < Gregorian.startOfYear (year + 1)) (hle : y ≤ year) :
    146000 * (yearGuess day y - year) ≤ 97 * (year - y) + 147200 := by
  have hyears := (startOfYear_add hle).2
  have hlength := (yearLength_bounds year).2
  rw [Gregorian.startOfYear_succ] at hend
  unfold yearGuess
  omega

private theorem yearGuess_late {day year y : Int} (hend : day < Gregorian.startOfYear (year + 1))
    (hlt : year < y) : yearGuess day y ≤ year := by
  have hyears := (startOfYear_add (show year + 1 ≤ y from hlt)).1
  unfold yearGuess
  omega

private theorem yearGuess_late_near {day year y : Int} (hstart : Gregorian.startOfYear year ≤ day)
    (hlt : year < y) : 146000 * (year - yearGuess day y) ≤ 97 * (y - year) + 147200 := by
  have hyears := (startOfYear_add (Int.le_of_lt hlt)).2
  unfold yearGuess
  omega

private theorem fastYearLoop_succ (fuel : Nat) (days y : Int) :
    fastYearLoop (fuel + 1) days y =
      if y - 1 < -2 ^ 31 then none
      else if adjusted y (guess y days) days < 0 ∨
          adjusted y (guess y days) days ≥ Gregorian.yearLength (toInt32 (guess y days)) then
        fastYearLoop fuel (adjusted y (guess y days) days) (toInt32 (guess y days))
      else some (adjusted y (guess y days) days, toInt32 (guess y days)) := by
  have hlength : Gregorian.yearLength (toInt32 (guess y days)) =
      if isLeapYear (toInt32 (guess y days)) then 366 else 365 := by
    rw [isLeapYear_eq]
    rfl
  rw [fastYearLoop, hlength]

private theorem fastYearLoop_mono {fuel fuel' : Nat} (hle : fuel ≤ fuel') {days y : Int}
    {found : Int × Int} (hfound : fastYearLoop fuel days y = some found) :
    fastYearLoop fuel' days y = some found := by
  induction fuel generalizing fuel' days y with
  | zero => exact absurd hfound (Option.some_ne_none _).symm
  | succ fuel ih =>
    obtain ⟨rest, rfl⟩ : ∃ rest, fuel' = rest + 1 := ⟨fuel' - 1, by omega⟩
    rw [fastYearLoop_succ] at hfound ⊢
    split_ifs at hfound ⊢
    · exact ih (by omega) hfound
    · exact hfound

theorem fastYearLoop_unique {fuel fuel' : Nat} {days y : Int} {found found' : Int × Int}
    (hfound : fastYearLoop fuel days y = some found)
    (hfound' : fastYearLoop fuel' days y = some found') : found = found' := by
  have hmax := fastYearLoop_mono (Nat.le_max_left fuel fuel') hfound
  have hmax' := fastYearLoop_mono (Nat.le_max_right fuel fuel') hfound'
  exact Option.some.inj (hmax.symm.trans hmax')

private theorem fastYearLoop_lt {fuel : Nat} {days y : Int} {found : Int × Int}
    (hfound : fastYearLoop fuel days y = some found) : found.2 < 2 ^ 31 := by
  induction fuel generalizing days y with
  | zero => exact absurd hfound (Option.some_ne_none _).symm
  | succ fuel ih =>
    rw [fastYearLoop_succ] at hfound
    split_ifs at hfound
    · exact ih hfound
    · rw [← Option.some.inj hfound]
      exact Int.bmod_lt (by decide)

private theorem fastYearLoop_lowest {fuel : Nat} {days y : Int} {found : Int × Int}
    (hguess : toInt32 (guess y days) = -2 ^ 31) (hfound : fastYearLoop fuel days y = some found) :
    found.2 = -2 ^ 31 := by
  cases fuel with
  | zero => exact absurd hfound (Option.some_ne_none _).symm
  | succ fuel =>
    rw [fastYearLoop_succ, hguess] at hfound
    split_ifs at hfound
    · cases fuel with
      | zero => exact absurd hfound (Option.some_ne_none _).symm
      | succ fuel =>
        rw [fastYearLoop_succ, if_pos (by decide)] at hfound
        exact absurd hfound (Option.some_ne_none _).symm
    · rw [← Option.some.inj hfound]

/-- A loop whose guesses stay in a range of the `int` finds the year of the day. -/
private theorem fastYearLoop_closed {day year low high : Int} (hlow : -2 ^ 31 < low)
    (hhigh : high < 2 ^ 31) (hstart : Gregorian.startOfYear year ≤ day)
    (hend : day < Gregorian.startOfYear (year + 1))
    (hclosed : ∀ y, low ≤ y → y ≤ high → y ≠ year →
      low ≤ yearGuess day y ∧ yearGuess day y ≤ high)
    {y : Int} (hy : low ≤ y) (hy' : y ≤ high)
    (hout : day - Gregorian.startOfYear y < 0 ∨
      day - Gregorian.startOfYear y ≥ Gregorian.yearLength y)
    {fuel : Nat} (hfuel : distance (day - Gregorian.startOfYear y) < fuel) :
    fastYearLoop fuel (day - Gregorian.startOfYear y) y =
      some (day - Gregorian.startOfYear year, year) := by
  induction fuel generalizing y with
  | zero => exact absurd hfuel (Nat.not_lt_zero _)
  | succ fuel ih =>
    have hne : y ≠ year := by
      rintro rfl
      rw [Gregorian.startOfYear_succ] at hend
      omega
    obtain ⟨hnext, hnext'⟩ := hclosed y hy hy' hne
    have hless := distance_adjusted hout
    rw [guess_yearGuess, adjusted_yearGuess] at hless
    rw [fastYearLoop_succ, if_neg (by omega), guess_yearGuess, adjusted_yearGuess,
      toInt32_of_fits (by omega) (by omega)]
    split_ifs with hagain
    · exact ih hnext hnext' hagain (by omega)
    · have hsucc := Gregorian.startOfYear_succ (yearGuess day y)
      have hyear : yearGuess day y = year :=
        @year_unique day _ _ (by omega) (by omega) hstart hend
      rw [hyear]

/-- From a year whose guess fits an `int` too, all later guesses lie between these two. -/
private theorem fastYearLoop_between {day year y : Int} (hstart : Gregorian.startOfYear year ≤ day)
    (hend : day < Gregorian.startOfYear (year + 1)) (hy : -2 ^ 31 < y ∧ y < 2 ^ 31)
    (hguess : -2 ^ 31 < yearGuess day y ∧ yearGuess day y < 2 ^ 31)
    (hout : day - Gregorian.startOfYear y < 0 ∨
      day - Gregorian.startOfYear y ≥ Gregorian.yearLength y)
    {fuel : Nat} (hfuel : distance (day - Gregorian.startOfYear y) < fuel) :
    fastYearLoop fuel (day - Gregorian.startOfYear y) y =
      some (day - Gregorian.startOfYear year, year) := by
  rcases lt_trichotomy y year with hlt | rfl | hlt
  · have hlate := yearGuess_early hstart (Int.le_of_lt hlt)
    have hnear := yearGuess_early_near hend (Int.le_of_lt hlt)
    apply fastYearLoop_closed hy.1 hguess.2 hstart hend _ (le_refl y) (by omega) hout hfuel
    intro other hother hother' hne
    rcases lt_or_gt_of_ne hne with hbefore | hafter
    · have hearly := yearGuess_early hstart (Int.le_of_lt hbefore)
      exact ⟨by omega, yearGuess_antitone day hother⟩
    · have hback := yearGuess_late hend hafter
      have hlast := yearGuess_late_near hstart (show year < yearGuess day y by omega)
      have hmono := yearGuess_antitone day hother'
      exact ⟨by omega, by omega⟩
  · rw [Gregorian.startOfYear_succ] at hend
    omega
  · have hearly := yearGuess_late hend hlt
    have hnear := yearGuess_late_near hstart hlt
    apply fastYearLoop_closed hguess.1 hy.2 hstart hend _ (by omega) (le_refl y) hout hfuel
    intro other hother hother' hne
    rcases lt_or_gt_of_ne hne with hbefore | hafter
    · have hforth := yearGuess_early hstart (Int.le_of_lt hbefore)
      have hlast := yearGuess_early_near hend (show yearGuess day y ≤ year by omega)
      have hmono := yearGuess_antitone day hother
      exact ⟨by omega, by omega⟩
    · have hlate := yearGuess_late hend hafter
      exact ⟨yearGuess_antitone day hother', by omega⟩

theorem exists_year (day : Int) : ∃ year, Gregorian.startOfYear year ≤ day ∧
    day < Gregorian.startOfYear (year + 1) := by
  obtain ⟨days, year, -, hnonneg, hlt, hsame⟩ :=
    @yearLoop_spec (distance day + 1) day 1970 (Nat.lt_succ_self _)
  have hepoch : Gregorian.startOfYear 1970 = 0 := rfl
  refine ⟨year, by omega, ?_⟩
  rw [Gregorian.startOfYear_succ]
  omega

@[simp] theorem startOfYear_epoch : Gregorian.startOfYear 1970 = 0 := rfl

private theorem first_round (fuel : Nat) {day first : Int} (hfirst : yearGuess day 1970 = first) :
    fastYearLoop (fuel + 1) day 1970 =
      if day - Gregorian.startOfYear first < 0 ∨
          day - Gregorian.startOfYear first ≥ Gregorian.yearLength (toInt32 first) then
        fastYearLoop fuel (day - Gregorian.startOfYear first) (toInt32 first)
      else some (day - Gregorian.startOfYear first, toInt32 first) := by
  have hguess := guess_yearGuess day 1970
  have hadjusted := adjusted_yearGuess day 1970
  rw [startOfYear_epoch, Int.sub_zero, hfirst] at hguess hadjusted
  rw [fastYearLoop_succ, if_neg (by decide), hguess, hadjusted]

section

variable {day year first second : Int}

theorem first_near (hstart : Gregorian.startOfYear year ≤ day)
    (hend : day < Gregorian.startOfYear (year + 1)) (hfirst : yearGuess day 1970 = first) :
    (1970 ≤ year ∧ year ≤ first ∧ 146000 * (first - year) ≤ 97 * (year - 1970) + 147200) ∨
      (year < 1970 ∧ first ≤ year ∧ 146000 * (year - first) ≤ 97 * (1970 - year) + 147200) := by
  subst hfirst
  rcases lt_or_ge year 1970 with hlt | hge
  · exact Or.inr ⟨hlt, yearGuess_late hend hlt, yearGuess_late_near hstart hlt⟩
  · exact Or.inl ⟨hge, yearGuess_early hstart hge, yearGuess_early_near hend hge⟩

private theorem first_closer (hfirst : yearGuess day 1970 = first)
    (hout : day - Gregorian.startOfYear first < 0 ∨
      day - Gregorian.startOfYear first ≥ Gregorian.yearLength first) :
    distance (day - Gregorian.startOfYear first) < distance day := by
  have hlength : Gregorian.yearLength 1970 = 365 := rfl
  have hother : day < 0 ∨ day ≥ Gregorian.yearLength 1970 := by
    by_contra hinside
    have hsame : first = 1970 := by
      rw [← hfirst]
      unfold yearGuess
      rw [startOfYear_epoch]
      omega
    rw [hsame, startOfYear_epoch] at hout
    omega
  have hless := distance_adjusted hother
  have hguess := guess_yearGuess day 1970
  have hadjusted := adjusted_yearGuess day 1970
  rw [startOfYear_epoch, Int.sub_zero, hfirst] at hguess hadjusted
  rw [hguess, hadjusted] at hless
  exact hless

private theorem first_late (hstart : Gregorian.startOfYear year ≤ day) (hyear : 2 ^ 31 ≤ year)
    (hfirst : yearGuess day 1970 = first) : year < first := by
  subst hfirst
  rw [Gregorian.startOfYear_eq] at hstart
  unfold Gregorian.leaps at hstart
  unfold yearGuess
  rw [startOfYear_epoch]
  omega

theorem finds_of_first (hstart : Gregorian.startOfYear year ≤ day)
    (hend : day < Gregorian.startOfYear (year + 1)) (hfirst : yearGuess day 1970 = first)
    (hfits : -2 ^ 31 < first ∧ first < 2 ^ 31) {fuel : Nat} (hfuel : distance day < fuel) :
    fastYearLoop fuel day 1970 = some (day - Gregorian.startOfYear year, year) := by
  have hnear := first_near hstart hend hfirst
  have hint : toInt32 first = first := toInt32_of_fits (by omega) hfits.2
  obtain ⟨fuel, rfl⟩ := Nat.exists_eq_add_one.mpr (Nat.zero_lt_of_lt hfuel)
  rw [first_round fuel hfirst, hint]
  split_ifs with hout
  · have hguess : -2 ^ 31 < yearGuess day first ∧ yearGuess day first < 2 ^ 31 := by
      rcases hnear with ⟨hge, hle, -⟩ | ⟨hlt, hle, -⟩
      · rcases eq_or_lt_of_le hle with rfl | hless
        · rw [Gregorian.startOfYear_succ] at hend
          omega
        · have hearly := yearGuess_late hend hless
          have hback := yearGuess_late_near hstart hless
          exact ⟨by omega, by omega⟩
      · have hlate := yearGuess_early hstart hle
        have hforth := yearGuess_early_near hend hle
        exact ⟨by omega, by omega⟩
    have hcloser := first_closer hfirst hout
    exact fastYearLoop_between hstart hend hfits hguess hout (by omega)
  · have hsucc := Gregorian.startOfYear_succ first
    have hyear : first = year := @year_unique day _ _ (by omega) (by omega) hstart hend
    rw [hyear]

private theorem leapsBetween_shift (first last m : Int) :
    leapsBetween (first + 4 * m) (last + 4 * m) ≤ leapsBetween first last + 2 ∧
      leapsBetween first last ≤ leapsBetween (first + 4 * m) (last + 4 * m) + 2 := by
  unfold leapsBetween Gregorian.leaps
  omega

private theorem toInt32_shift (value : Int) : ∃ m, toInt32 value = value + 4 * m := by
  have hdvd := @Int.dvd_bmod_sub_self value (2 ^ 32)
  obtain ⟨m, hm⟩ := hdvd
  refine ⟨1073741824 * m, ?_⟩
  unfold toInt32
  omega

/-- After a first guess that leaves the `int`, the second one is on its other side. -/
private theorem second_near (hstart : Gregorian.startOfYear year ≤ day)
    (hend : day < Gregorian.startOfYear (year + 1)) (hyear : -2 ^ 31 ≤ year - 1900)
    (hyear' : year < 2 ^ 31) (hfirst : yearGuess day 1970 = first)
    (hsecond : yearGuess day first = second) (hleaves : ¬(-2 ^ 31 < first ∧ first < 2 ^ 31)) :
    (second ≤ year ∧ year ≤ second + 1000 ∧ 2 ^ 31 ≤ first) ∨
      (year ≤ second ∧ second ≤ year + 1000 ∧ year < 1970) := by
  subst hsecond
  rcases first_near hstart hend hfirst with ⟨hge, hle, hnear⟩ | ⟨hlt, hle, hnear⟩
  · have hless : year < first := by omega
    have hearly := yearGuess_late hend hless
    have hback := yearGuess_late_near hstart hless
    exact Or.inl ⟨hearly, by omega, by omega⟩
  · have hlate := yearGuess_early hstart hle
    have hforth := yearGuess_early_near hend hle
    exact Or.inr ⟨hlate, by omega, hlt⟩

/-- The state after a first guess that leaves the `int` and a second one that comes back: the days
are off by the leap years that were counted for other years. -/
private theorem second_round (hstart : Gregorian.startOfYear year ≤ day)
    (hend : day < Gregorian.startOfYear (year + 1)) (hyear : -2 ^ 31 ≤ year - 1900)
    (hyear' : year < 2 ^ 31) (hfirst : yearGuess day 1970 = first)
    (hsecond : yearGuess day first = second) (hleaves : ¬(-2 ^ 31 < first ∧ first < 2 ^ 31))
    (hlowest : toInt32 first ≠ -2 ^ 31) {moved : Int}
    (hmoved : moved = day + (leapsBetween (toInt32 first + (second - first)) (toInt32 first) -
      leapsBetween second first)) (fuel : Nat) :
    fastYearLoop (fuel + 1 + 1) day 1970 =
      if moved - Gregorian.startOfYear second < 0 ∨
          moved - Gregorian.startOfYear second ≥ Gregorian.yearLength second then
        fastYearLoop fuel (moved - Gregorian.startOfYear second) second
      else some (moved - Gregorian.startOfYear second, second) := by
  have hnear := first_near hstart hend hfirst
  have hlow : -2 ^ 31 ≤ toInt32 first := @Int.le_bmod first (2 ^ 32) (by decide)
  have hlength := (yearLength_bounds (toInt32 first)).2
  have hside := second_near hstart hend hyear hyear' hfirst hsecond hleaves
  have hfits : toInt32 second = second := toInt32_of_fits (by omega) (by omega)
  have hout : day - Gregorian.startOfYear first < 0 ∨
      day - Gregorian.startOfYear first ≥ Gregorian.yearLength (toInt32 first) := by
    rcases hnear with ⟨hge, hle, -⟩ | ⟨hlt, hle, -⟩
    · have hyears := (startOfYear_add (show year + 1 ≤ first by omega)).1
      omega
    · have hyears := (startOfYear_add hle).1
      omega
  have hguess : guess (toInt32 first) (day - Gregorian.startOfYear first) =
      toInt32 first + (second - first) := by
    rw [guess_eq, ← hsecond]
    unfold yearGuess
    omega
  have hback : toInt32 (toInt32 first + (second - first)) = second := by
    have hsum : first + (second - first) = second := by omega
    unfold toInt32 at hfits ⊢
    rw [Int.bmod_add_bmod, hsum, hfits]
  have hadjusted : adjusted (toInt32 first) (toInt32 first + (second - first))
      (day - Gregorian.startOfYear first) = moved - Gregorian.startOfYear second := by
    rw [hmoved, Gregorian.startOfYear_eq, Gregorian.startOfYear_eq]
    unfold adjusted leapsBetween
    rw [leapsThruEndOf_eq, leapsThruEndOf_eq]
    omega
  rw [first_round _ hfirst, if_pos hout, fastYearLoop_succ, if_neg (by omega), hguess, hback,
    hadjusted]

private theorem second_outcome (hstart : Gregorian.startOfYear year ≤ day)
    (hend : day < Gregorian.startOfYear (year + 1)) (hyear : -2 ^ 31 ≤ year - 1900)
    (hyear' : year < 2 ^ 31) (hfirst : yearGuess day 1970 = first)
    (hsecond : yearGuess day first = second) (hleaves : ¬(-2 ^ 31 < first ∧ first < 2 ^ 31))
    (hlowest : toInt32 first ≠ -2 ^ 31) {moved : Int}
    (hmoved : moved = day + (leapsBetween (toInt32 first + (second - first)) (toInt32 first) -
      leapsBetween second first)) :
    (yearGuess moved second < 2 ^ 31 ∧ ∃ fuel y, Gregorian.startOfYear y ≤ moved ∧
        moved < Gregorian.startOfYear (y + 1) ∧
        fastYearLoop fuel day 1970 = some (moved - Gregorian.startOfYear y, y)) ∨
      (2 ^ 31 ≤ yearGuess moved second ∧
        ∀ fuel found, fastYearLoop fuel day 1970 = some found → found.2 = -2 ^ 31) := by
  have hround := second_round hstart hend hyear hyear' hfirst hsecond hleaves hlowest hmoved
  have hside := second_near hstart hend hyear hyear' hfirst hsecond hleaves
  have hfew : moved ≤ day + 2 ∧ day ≤ moved + 2 := by
    obtain ⟨m, hm⟩ := toInt32_shift first
    have hshift := leapsBetween_shift second first m
    have hsum : toInt32 first + (second - first) = second + 4 * m := by omega
    rw [hsum, hm] at hmoved
    omega
  have hnext := Gregorian.startOfYear_succ second
  by_cases hout : moved - Gregorian.startOfYear second < 0 ∨
      moved - Gregorian.startOfYear second ≥ Gregorian.yearLength second
  · have hthird : -2 ^ 31 < yearGuess moved second ∧ yearGuess moved second ≤ 2 ^ 31 := by
      unfold yearGuess
      rcases hside with ⟨hle, hnear, -⟩ | ⟨hle, hnear, -⟩
      · have hyears := startOfYear_add hle
        have hlength := (yearLength_bounds year).2
        rw [Gregorian.startOfYear_succ] at hend
        exact ⟨by omega, by omega⟩
      · have hyears := startOfYear_add hle
        have hlength := (yearLength_bounds year).2
        rw [Gregorian.startOfYear_succ] at hend
        exact ⟨by omega, by omega⟩
    by_cases hfits : yearGuess moved second < 2 ^ 31
    · obtain ⟨y, hy, hy'⟩ := exists_year moved
      have hloop := fastYearLoop_between hy hy' ⟨by omega, by omega⟩ ⟨hthird.1, hfits⟩ hout
        (Nat.lt_succ_self _)
      exact Or.inl ⟨hfits, _, y, hy, hy', by rw [hround, if_pos hout, hloop]⟩
    · refine Or.inr ⟨Int.not_lt.mp hfits, fun fuel found hfound => ?_⟩
      have hmore := fastYearLoop_mono (show fuel ≤ fuel + 1 + 1 by omega) hfound
      rw [hround, if_pos hout] at hmore
      have hmax : yearGuess moved second = 2147483648 := by omega
      apply fastYearLoop_lowest _ hmore
      rw [guess_yearGuess, hmax]
      rfl
  · have hlast : second = 2147483647 → Gregorian.yearLength second = 365 := by
      rintro rfl
      rfl
    have hlength := (yearLength_bounds second).2
    refine Or.inl ⟨?_, 2, second, by omega, by omega, by rw [hround 0, if_neg hout]⟩
    unfold yearGuess
    by_cases hmax : second = 2147483647
    · have hshort := hlast hmax
      omega
    · omega

theorem finds_iff (hstart : Gregorian.startOfYear year ≤ day)
    (hend : day < Gregorian.startOfYear (year + 1)) (hyear : -2 ^ 31 ≤ year - 1900) :
    (∃ fuel, fastYearLoop fuel day 1970 = some (day - Gregorian.startOfYear year, year)) ↔
      GuessesFit day := by
  unfold GuessesFit
  dsimp only
  generalize hfirst : yearGuess day 1970 = first
  generalize hsecond : yearGuess day first = second
  constructor
  · rintro ⟨fuel, hfound⟩
    by_cases hleaves : -2 ^ 31 < first ∧ first < 2 ^ 31
    · exact Or.inl hleaves
    · have hyear' : year < 2 ^ 31 := fastYearLoop_lt hfound
      have hlowest : toInt32 first ≠ -2 ^ 31 := by
        intro hlowest
        have hguess := guess_yearGuess day 1970
        rw [startOfYear_epoch, Int.sub_zero, hfirst] at hguess
        have hlast := fastYearLoop_lowest (hguess ▸ hlowest) hfound
        dsimp only at hlast
        omega
      rcases second_outcome hstart hend hyear hyear' hfirst hsecond hleaves hlowest rfl with
        ⟨hthird, fuel', y, -, -, hfound'⟩ | ⟨-, hlast⟩
      · obtain ⟨hdays, hyears⟩ := Prod.mk.inj (fastYearLoop_unique hfound hfound')
        subst hyears
        have hsame : leapsBetween (toInt32 first + (second - first)) (toInt32 first) -
            leapsBetween second first = 0 := by omega
        rw [hsame, Int.add_zero] at hthird
        exact Or.inr ⟨hlowest, by omega, hthird⟩
      · have hyears := hlast fuel _ hfound
        dsimp only at hyears
        omega
  · intro hfits
    by_cases hleaves : -2 ^ 31 < first ∧ first < 2 ^ 31
    · exact ⟨_, finds_of_first hstart hend hfirst hleaves (Nat.lt_succ_self _)⟩
    · obtain ⟨hlowest, hleaps, hthird⟩ := hfits.resolve_left hleaves
      have hyear' : year < 2 ^ 31 := by
        by_contra hbeyond
        have hless : year < first := first_late hstart (Int.not_lt.mp hbeyond) hfirst
        have hearly := yearGuess_late hend hless
        rw [hsecond] at hearly
        have hlate := yearGuess_early hstart hearly
        omega
      have hmoved : day = day + (leapsBetween (toInt32 first + (second - first)) (toInt32 first) -
          leapsBetween second first) := by omega
      rcases second_outcome hstart hend hyear hyear' hfirst hsecond hleaves hlowest hmoved with
        ⟨-, fuel, y, hy, hy', hfound⟩ | ⟨hbeyond, -⟩
      · have hsame : y = year := year_unique hy hy' hstart hend
        exact ⟨fuel, hsame ▸ hfound⟩
      · omega

end

theorem fastLocaltime_some {fuel : Nat} {offset time : Int} {st fast : Tm}
    (hfast : fastLocaltime fuel offset time st = some fast) :
    ∃ days y m, fastYearLoop fuel ((time + offset).tdiv 86400) 1970 = some (days, y) ∧
      monthLoop (monYday (isLeapYear y)) days 11 = some m ∧
      fast.year = y - 1900 ∧ fast.mon = m ∧
      fast.mday = days - (monYday (isLeapYear y)).getD m 0 + 1 ∧
      fast.hour = ((time + offset).tmod 86400).tdiv 3600 ∧
      fast.min = (((time + offset).tmod 86400).tmod 3600).tdiv 60 ∧
      fast.sec = (((time + offset).tmod 86400).tmod 3600).tmod 60 := by
  unfold fastLocaltime at hfast
  dsimp only at hfast
  split_ifs at hfast
  obtain ⟨⟨days, y⟩, hloop, hfast⟩ := Option.bind_eq_some_iff.mp hfast
  dsimp only at hfast
  split_ifs at hfast
  obtain ⟨m, hmonth, hfast⟩ := Option.bind_eq_some_iff.mp hfast
  rw [← Option.some.inj hfast]
  exact ⟨days, y, m, hloop, hmonth, rfl, rfl, rfl, rfl, rfl, rfl⟩

theorem fastLocaltime_of_loop {fuel : Nat} {offset time days y : Int} {m : Nat} (st : Tm)
    (hfits : -2 ^ 63 ≤ time + offset ∧ time + offset < 2 ^ 63)
    (hloop : fastYearLoop fuel ((time + offset).tdiv 86400) 1970 = some (days, y))
    (hyear : -2 ^ 31 ≤ y - 1900) (hmonth : monthLoop (monYday (isLeapYear y)) days 11 = some m) :
    ∃ fast, fastLocaltime fuel offset time st = some fast := by
  unfold fastLocaltime
  simp only [if_neg (show ¬(time + offset < -2 ^ 63 ∨ time + offset ≥ 2 ^ 63) by omega), hloop,
    if_neg (Int.not_lt.mpr hyear), hmonth, Option.bind_eq_bind, Option.bind_some]
  exact ⟨_, rfl⟩

section

variable {offset time year day rem : Int}

private theorem agrees_iff_finds (htime : -2 ^ 63 ≤ time ∧ time < 2 ^ 63)
    (hoffset : -2 ^ 31 ≤ offset ∧ offset < 2 ^ 31)
    (hyear : -2 ^ 31 ≤ year - 1900 ∧ year - 1900 < 2 ^ 31)
    (hday : (time + offset).tdiv 86400 = day) (hrem : (time + offset).tmod 86400 = rem)
    (hrem' : 0 ≤ rem) (hstart : Gregorian.startOfYear year ≤ day)
    (hend : day < Gregorian.startOfYear (year + 1)) :
    Agrees offset time ↔
      ∃ fuel, fastYearLoop fuel day 1970 = some (day - Gregorian.startOfYear year, year) := by
  have hsum := Int.mul_tdiv_add_tmod (time + offset) 86400
  have hlong := tmod_day (time + offset)
  rw [hday, hrem] at hsum
  rw [hrem] at hlong
  obtain ⟨m, hm, -, -, hmonth, hfull⟩ := @gLocaltime_eq time offset year htime
    ⟨by omega, by omega⟩ hyear day rem hsum.symm ⟨hrem', hlong.2.1⟩ hstart hend
  have hip := monYday_eq (Gregorian.isLeap year) (show m ≤ 12 by omega)
  constructor
  · intro hagrees
    obtain ⟨fuel, fast, full, hfast, hfull', hsame⟩ := hagrees ⟨0, 0, 0, 0, 0, 0, 0, 0, 0⟩
    obtain ⟨days, y, m', hloop, -, hyears, hmonths, hdays, -⟩ := fastLocaltime_some hfast
    rw [hfull] at hfull'
    obtain rfl := Option.some.inj hfull'
    obtain rfl : y = year := by
      have hsameYear := hsame.year
      dsimp only at hsameYear
      omega
    obtain rfl : m' = m := by
      have hsameMonth := hsame.mon
      dsimp only at hsameMonth
      omega
    have hsameDay := hsame.mday
    rw [hdays, isLeapYear_eq, hip] at hsameDay
    dsimp only at hsameDay
    rw [hday] at hloop
    have hfound : days = day - Gregorian.startOfYear y := by omega
    exact ⟨fuel, hfound ▸ hloop⟩
  · rintro ⟨fuel, hloop⟩ st
    have hbounds := @yearFits_bounds (time + offset) ⟨year, hyear.1, hyear.2, by omega, by omega⟩
    rw [← hday] at hloop
    rw [← isLeapYear_eq] at hmonth
    obtain ⟨fast, hfast⟩ := fastLocaltime_of_loop st ⟨by omega, by omega⟩ hloop hyear.1
      (hday ▸ hmonth)
    obtain ⟨days, y, m', hloop', hmonth', hyears, hmonths, hdays, hhour, hmin, hsec⟩ :=
      fastLocaltime_some hfast
    obtain ⟨rfl, rfl⟩ := Prod.mk.inj (fastYearLoop_unique hloop hloop')
    rw [hday, hmonth] at hmonth'
    obtain rfl := Option.some.inj hmonth'
    rw [hday, isLeapYear_eq, hip] at hdays
    rw [hrem] at hhour hmin hsec
    exact ⟨fuel, fast, _, hfast, hfull, hyears, hmonths, hdays, hhour, hmin, hsec⟩

theorem not_agrees (htime : -2 ^ 63 ≤ time ∧ time < 2 ^ 63)
    (hoffset : -2 ^ 31 ≤ offset ∧ offset < 2 ^ 31) (hfits : YearFits (time + offset))
    (hneg : (time + offset).tmod 86400 < 0) : ¬Agrees offset time := by
  intro hagrees
  obtain ⟨year, hyear, hstart, hend⟩ := yearFits_day hfits
  have htotal := (Int.mul_ediv_add_emod (time + offset) 86400).symm
  have hrem := Int.emod_nonneg (time + offset) (show (86400 : Int) ≠ 0 by decide)
  have hrem' := Int.emod_lt_of_pos (time + offset) (show (0 : Int) < 86400 by decide)
  obtain ⟨m, -, -, -, -, hfull⟩ := @gLocaltime_eq time offset year htime ⟨by omega, by omega⟩
    hyear _ _ htotal ⟨hrem, hrem'⟩ hstart hend
  obtain ⟨hsecond, hminute, hhour, -⟩ := timeOfDay hrem hrem'
  obtain ⟨fuel, fast, full, hfast, hfull', hsame⟩ := hagrees ⟨0, 0, 0, 0, 0, 0, 0, 0, 0⟩
  obtain ⟨-, -, -, -, -, -, -, -, hfastHour, hfastMin, hfastSec⟩ := fastLocaltime_some hfast
  rw [hfull] at hfull'
  obtain rfl := Option.some.inj hfull'
  have hsameHour := hfastHour.symm.trans hsame.hour
  have hsameMin := hfastMin.symm.trans hsame.min
  have hsameSec := hfastSec.symm.trans hsame.sec
  dsimp only at hsameHour hsameMin hsameSec
  have hhours := Int.mul_tdiv_add_tmod ((time + offset).tmod 86400) 3600
  have hminutes := Int.mul_tdiv_add_tmod (((time + offset).tmod 86400).tmod 3600) 60
  omega

/-- The logger's conversion agrees with `g_localtime` exactly for times that are not negative or at
midnight, of days whose guesses fit. -/
theorem agrees_iff (htime : -2 ^ 63 ≤ time ∧ time < 2 ^ 63)
    (hoffset : -2 ^ 31 ≤ offset ∧ offset < 2 ^ 31) (hfits : YearFits (time + offset)) :
    Agrees offset time ↔
      (0 ≤ time + offset ∨ 86400 ∣ time + offset) ∧ GuessesFit ((time + offset) / 86400) := by
  have hparts := Int.mul_tdiv_add_tmod (time + offset) 86400
  have hlong := tmod_day (time + offset)
  obtain ⟨year, hyear, hstart, hend⟩ := yearFits_day hfits
  by_cases hwhole : 0 ≤ time + offset ∨ 86400 ∣ time + offset
  · have hrem : 0 ≤ (time + offset).tmod 86400 := by
      rcases hwhole with hnonneg | hdvd
      · exact Int.tmod_nonneg _ hnonneg
      · exact Int.le_of_eq (Int.dvd_iff_tmod_eq_zero.mp hdvd).symm
    have hday : (time + offset).tdiv 86400 = (time + offset) / 86400 := by omega
    rw [agrees_iff_finds htime hoffset hyear hday rfl hrem hstart hend,
      finds_iff hstart hend hyear.1]
    exact (and_iff_right hwhole).symm
  · have hneg : (time + offset).tmod 86400 < 0 := by
      rcases lt_trichotomy ((time + offset).tmod 86400) 0 with hneg | hzero | hpos
      · exact hneg
      · exact absurd (Or.inr (Int.dvd_iff_tmod_eq_zero.mpr hzero)) hwhole
      · omega
    have hnot := not_agrees htime hoffset hfits hneg
    exact iff_of_false hnot fun hboth => hwhole hboth.1

/-- A time of the year 2012, eight hours east of Greenwich. -/
theorem agrees_iff_east : Agrees 28800 1345606467 ↔
    (0 ≤ (1345606467 : Int) + 28800 ∨ 86400 ∣ (1345606467 : Int) + 28800) ∧
      GuessesFit ((1345606467 + 28800) / 86400) :=
  agrees_iff (by decide) (by decide) ⟨2012, by decide⟩

example : fastLocaltime 1 0 (-1) ⟨0, 0, 0, 0, 0, 0, 0, 0, 0⟩ =
    some ⟨-1, 0, 0, 1, 0, 70, 0, 0, 0⟩ := by decide

/-- The second before the epoch. -/
theorem not_agrees_before : YearFits (-1 + 3600 * 0) ∧ ¬Agrees (3600 * 0) (-1) := by
  have hfits : YearFits (-1 + 3600 * 0) := ⟨1969, by decide⟩
  exact ⟨hfits, not_agrees (by decide) (by decide) hfits (by decide)⟩

end

end Libsax.Logger
