import Libsax.Lib.CString
import Libsax.Logger.FastLocaltime

/-! `update_log_buf`: the time in front of a log line, of which only what has changed since the last
line is written again. -/
namespace Libsax.Logger

open Libsax.Lib Libsax.Time

def gTimezone (tzMinuteswest : Int) : Int := tzMinuteswest.tdiv (-60)

def sTzOffset (tzMinuteswest : Int) : Int := gTimezone tzMinuteswest * 3600

def digit (num : Int) : UInt8 := UInt8.ofNat (num.tmod 10 + 48).toNat

/-- `fast_int2str`, which writes the last digit first -/
def fastInt2str (num : Int) (memory : Memory) (str : Nat) : Nat → Memory
  | 0 => memory
  | digits + 1 =>
    fastInt2str (num.tdiv 10) (Function.update memory (str + digits) (digit num)) str digits

structure LogState where
  lastMinutes : Int
  lastSecond : Int
  logBuf : Memory

/-- The state of a thread before its first line. -/
def zeroed : LogState := ⟨0, 0, fun _ => 0⟩

/-- A sum that is an `int32_t`. -/
def int32 (value : Int) : Option Int :=
  if value < -2 ^ 31 ∨ value ≥ 2 ^ 31 then none else some value

/-- `date`, such as 20120822 -/
def dateOf (st : Tm) : Option Int := do
  let date ← int32 ((st.year + 1900) * 10000)
  let date ← int32 (date + (st.mon + 1) * 100)
  int32 (date + st.mday)

/-- The brackets, blanks, colons and the point. -/
def separate (logBuf : Memory) : Memory :=
  let logBuf := Function.update logBuf 0 91
  let logBuf := Function.update logBuf 9 32
  let logBuf := Function.update logBuf 12 58
  let logBuf := Function.update logBuf 15 58
  let logBuf := Function.update logBuf 18 46
  Function.update logBuf 25 93

/-- The part behind the time, of `LOG_TIME_LEN` characters, with the thread. -/
def writeTid (tid : Int) (logBuf : Memory) : Memory :=
  let logBuf := fastInt2str (toInt32 tid) logBuf 27 5
  let logBuf := Function.update logBuf 26 91
  Function.update logBuf 32 93

/-- `update_log_buf`. The shifted seconds bound the rounds of `fast_localtime`. -/
def updateLogBuf (tzOffset tid timestampUs : Int) (state : LogState) : Option LogState :=
  let secs := timestampUs.tdiv 1000000
  let usPart := timestampUs.tmod 1000000
  let minutes := secs.tdiv 60
  let second := secs.tmod 60
  if minutes ≠ state.lastMinutes then do
    let st ← fastLocaltime ((secs + tzOffset).natAbs + 400) tzOffset secs
      ⟨0, 0, 0, 0, 0, 0, 0, 0, 0⟩
    let date ← dateOf st
    -- two digits for the hours, and three with a '0' in front for the minutes and the seconds
    let time := st.hour * 1000000 + st.min * 1000 + st.sec
    let logBuf := fastInt2str date state.logBuf 1 8
    let logBuf := fastInt2str time logBuf 10 8
    let logBuf := fastInt2str usPart logBuf 19 6
    let logBuf := separate logBuf
    let logBuf := if state.lastMinutes = 0 then writeTid tid logBuf else logBuf
    some ⟨minutes, second, logBuf⟩
  else if state.lastSecond ≠ second then
    let logBuf := fastInt2str (second * 10000000 + usPart) state.logBuf 16 9
    some ⟨state.lastMinutes, second, Function.update logBuf 18 46⟩
  else some ⟨state.lastMinutes, state.lastSecond, fastInt2str usPart state.logBuf 19 6⟩

def decimal : Nat → Int → List UInt8
  | 0, _ => []
  | digits + 1, num => decimal digits (num.tdiv 10) ++ [digit num]

/-- The number that is shown for a day. -/
def IsDate (day date : Int) : Prop :=
  ∃ (year : Int) (m : Nat),
    Gregorian.startOfYear year ≤ day ∧ day < Gregorian.startOfYear (year + 1) ∧
      monthLoop (monYday (Gregorian.isLeap year)) (day - Gregorian.startOfYear year) 11 = some m ∧
      date = year * 10000 + (m + 1) * 100 +
        (day - Gregorian.startOfYear year - Gregorian.daysBefore (Gregorian.isLeap year) m + 1)

/-- The 26 bytes show a local time, in seconds and microseconds. -/
structure Shows (time us : Int) (logBuf : Memory) : Prop where
  opening : logBuf 0 = 91
  date : ∃ date, IsDate (time / 86400) date ∧ logBuf.At 1 (decimal 8 date)
  blank : logBuf 9 = 32
  hour : logBuf.At 10 (decimal 2 (time % 86400 / 3600))
  hourColon : logBuf 12 = 58
  min : logBuf.At 13 (decimal 2 (time % 3600 / 60))
  minColon : logBuf 15 = 58
  sec : logBuf.At 16 (decimal 2 (time % 60))
  point : logBuf 18 = 46
  us : logBuf.At 19 (decimal 6 us)
  closing : logBuf 25 = 93

/-- A time stamp from a day after the epoch on, up to the end of the year 9999 in any zone. -/
def InYears (timestampUs : Int) : Prop :=
  86400 * 1000000 ≤ timestampUs ∧
    timestampUs < 86400 * 1000000 * (Gregorian.startOfYear 10000 + 1)

/-- What a state holds after a call with a time stamp. -/
structure Shown (tzOffset timestampUs : Int) (state : LogState) : Prop where
  minutes : state.lastMinutes = timestampUs / 1000000 / 60
  second : state.lastSecond = timestampUs / 1000000 % 60
  shows : Shows (timestampUs / 1000000 + tzOffset) (timestampUs % 1000000) state.logBuf

/-- The states of a thread: the first one, and those after a call. -/
def Reached (tzOffset : Int) (state : LogState) : Prop :=
  state.lastMinutes = 0 ∨ ∃ timestampUs, Shown tzOffset timestampUs state

@[simp] private theorem decimal_length (digits : Nat) (num : Int) :
    (decimal digits num).length = digits := by
  induction digits generalizing num with
  | zero => rfl
  | succ digits ih => rw [decimal, List.length_append, ih, List.length_singleton]

private theorem fastInt2str_eq (num : Int) (memory : Memory) (str digits : Nat) :
    fastInt2str num memory str digits = memory.putAll str (decimal digits num) := by
  induction digits generalizing num memory with
  | zero => rfl
  | succ digits ih =>
    have hbehind : str + (decimal digits (num.tdiv 10)).length ≤ str + digits := by
      rw [decimal_length]
    rw [fastInt2str, ih, decimal, Memory.putAll_append, decimal_length,
      Memory.putAll_update (.inr hbehind)]
    rfl

private theorem decimal_append (high low : Nat) {x y : Int} (hx : 0 ≤ x) (hy : 0 ≤ y)
    (hlt : y < 10 ^ low) :
    decimal (high + low) (x * 10 ^ low + y) = decimal high x ++ decimal low y := by
  induction low generalizing y with
  | zero =>
    have hzero : y = 0 := by omega
    rw [hzero, pow_zero, Int.mul_one, Int.add_zero, Nat.add_zero, decimal, List.append_nil]
  | succ low ih =>
    have hpow : (10 : Int) ^ (low + 1) = 10 ^ low * 10 := pow_succ 10 low
    have hpart : 0 ≤ x * 10 ^ low := mul_nonneg hx (pow_nonneg (by decide) low)
    have hsum : x * 10 ^ (low + 1) + y = (x * 10 ^ low) * 10 + y := by rw [hpow, mul_assoc]
    have hdiv : (x * 10 ^ (low + 1) + y).tdiv 10 = x * 10 ^ low + y.tdiv 10 := by
      rw [hsum, Int.tdiv_eq_ediv_of_nonneg (by omega), Int.tdiv_eq_ediv_of_nonneg hy]
      omega
    have hmod : digit (x * 10 ^ (low + 1) + y) = digit y := by
      unfold digit
      rw [hsum, Int.tmod_eq_emod_of_nonneg (by omega), Int.tmod_eq_emod_of_nonneg hy,
        Int.mul_add_emod_self_right]
    have hnonneg : 0 ≤ y.tdiv 10 := Int.tdiv_nonneg hy (by decide)
    have hless : y.tdiv 10 < 10 ^ low := by
      rw [Int.tdiv_eq_ediv_of_nonneg hy]
      omega
    rw [← Nat.add_assoc, decimal, hdiv, hmod, ih hnonneg hless, decimal, List.append_assoc]

private theorem decimal_zeros (high low : Nat) {y : Int} (hy : 0 ≤ y) (hlt : y < 10 ^ low) :
    decimal (high + low) y = decimal high 0 ++ decimal low y := by
  have hsum := decimal_append high low (le_refl 0) hy hlt
  rw [Int.zero_mul, Int.zero_add] at hsum
  exact hsum

private theorem decimal_time {hour min sec : Int} (hhour : 0 ≤ hour) (hmin : 0 ≤ min ∧ min < 60)
    (hsec : 0 ≤ sec ∧ sec < 60) :
    decimal 8 (hour * 1000000 + min * 1000 + sec) =
      decimal 2 hour ++ (decimal 1 0 ++ (decimal 2 min ++ (decimal 1 0 ++ decimal 2 sec))) := by
  have hsum : hour * 1000000 + min * 1000 + sec = hour * 10 ^ 6 + (min * 10 ^ 3 + sec) := by omega
  calc decimal 8 (hour * 1000000 + min * 1000 + sec)
      = decimal (2 + 6) (hour * 10 ^ 6 + (min * 10 ^ 3 + sec)) := by rw [hsum]
    _ = decimal 2 hour ++ decimal (3 + 3) (min * 10 ^ 3 + sec) :=
        decimal_append 2 6 hhour (by omega) (by omega)
    _ = decimal 2 hour ++ (decimal (1 + 2) min ++ decimal (1 + 2) sec) := by
        rw [decimal_append 3 3 hmin.1 hsec.1 (by omega)]
    _ = _ := by
        rw [decimal_zeros 1 2 hmin.1 (by omega), decimal_zeros 1 2 hsec.1 (by omega),
          List.append_assoc]

private theorem decimal_seconds {sec us : Int} (hsec : 0 ≤ sec) (hus : 0 ≤ us ∧ us < 1000000) :
    decimal 9 (sec * 10000000 + us) = decimal 2 sec ++ (decimal 1 0 ++ decimal 6 us) := by
  calc decimal 9 (sec * 10000000 + us)
      = decimal 2 sec ++ decimal (1 + 6) us := decimal_append 2 7 hsec hus.1 (by omega)
    _ = _ := by rw [decimal_zeros 1 6 hus.1 (by omega)]

section

variable {logBuf other : Memory} {time us : Int}

private theorem at_decimal_congr {i digits : Nat} {num : Int}
    (hsame : ∀ j, i ≤ j → j < i + digits → other j = logBuf j)
    (hbytes : logBuf.At i (decimal digits num)) : other.At i (decimal digits num) := by
  apply Memory.at_congr _ hbytes
  rw [decimal_length]
  exact hsame

private theorem fastInt2str_other {i str digits : Nat} {num : Int}
    (hother : i < str ∨ str + digits ≤ i) : fastInt2str num logBuf str digits i = logBuf i := by
  rw [fastInt2str_eq]
  rcases hother with hbefore | hbehind
  · exact Memory.putAll_of_lt hbefore
  · exact Memory.putAll_of_le (by rw [decimal_length]; exact hbehind)

private theorem separate_other {i : Nat}
    (hother : i ≠ 0 ∧ i ≠ 9 ∧ i ≠ 12 ∧ i ≠ 15 ∧ i ≠ 18 ∧ i ≠ 25) :
    separate logBuf i = logBuf i := by
  obtain ⟨h0, h9, h12, h15, h18, h25⟩ := hother
  unfold separate
  rw [Function.update_of_ne h25, Function.update_of_ne h18, Function.update_of_ne h15,
    Function.update_of_ne h12, Function.update_of_ne h9, Function.update_of_ne h0]

theorem Shows.keep {before usBefore : Int} (hshows : Shows before usBefore logBuf)
    (hminute : before / 60 = time / 60) (hsame : ∀ i < 16, other i = logBuf i)
    (hsec : other.At 16 (decimal 2 (time % 60))) (hpoint : other 18 = 46)
    (hus : other.At 19 (decimal 6 us)) (hclosing : other 25 = 93) : Shows time us other := by
  have hday : before / 86400 = time / 86400 := by omega
  have hhour : before % 86400 / 3600 = time % 86400 / 3600 := by omega
  have hmin : before % 3600 / 60 = time % 3600 / 60 := by omega
  have hat : ∀ {i digits : Nat} {num : Int}, i + digits ≤ 16 →
      logBuf.At i (decimal digits num) → other.At i (decimal digits num) :=
    fun hle => at_decimal_congr fun j _ hlt => hsame j (by omega)
  obtain ⟨date, hdate, hbytes⟩ := hshows.date
  constructor
  case opening => rw [hsame 0 (by decide), hshows.opening]
  case date => exact ⟨date, hday ▸ hdate, hat (by decide) hbytes⟩
  case blank => rw [hsame 9 (by decide), hshows.blank]
  case hour => exact hat (by decide) (hhour ▸ hshows.hour)
  case hourColon => rw [hsame 12 (by decide), hshows.hourColon]
  case min => exact hat (by decide) (hmin ▸ hshows.min)
  case minColon => rw [hsame 15 (by decide), hshows.minColon]
  case sec => exact hsec
  case point => exact hpoint
  case us => exact hus
  case closing => exact hclosing

theorem Shows.congr (hshows : Shows time us logBuf) (hsame : ∀ i < 26, other i = logBuf i) :
    Shows time us other := by
  apply hshows.keep rfl
  · exact fun i hlt => hsame i (by omega)
  · exact at_decimal_congr (fun j _ hlt => hsame j (by omega)) hshows.sec
  · rw [hsame 18 (by decide), hshows.point]
  · exact at_decimal_congr (fun j _ hlt => hsame j (by omega)) hshows.us
  · rw [hsame 25 (by decide), hshows.closing]

theorem Shows.second {before usBefore : Int} (hshows : Shows before usBefore logBuf)
    (hminute : before / 60 = time / 60) (hus : 0 ≤ us ∧ us < 1000000) :
    Shows time us
      (Function.update (fastInt2str (time % 60 * 10000000 + us) logBuf 16 9) 18 46) := by
  have hwritten := logBuf.at_putAll 16 (decimal 9 (time % 60 * 10000000 + us))
  rw [← fastInt2str_eq, decimal_seconds (by omega) hus] at hwritten
  obtain ⟨hsec, hrest⟩ := Memory.at_append.mp hwritten
  obtain ⟨-, hpart⟩ := Memory.at_append.mp hrest
  rw [decimal_length, decimal_length] at hpart
  have hother : ∀ i, i < 16 ∨ 25 ≤ i →
      fastInt2str (time % 60 * 10000000 + us) logBuf 16 9 i = logBuf i :=
    fun i hi => fastInt2str_other hi
  apply hshows.keep hminute
  · intro i hlt
    rw [Function.update_of_ne (by omega), hother i (Or.inl hlt)]
  · exact at_decimal_congr (fun j _ hlt => Function.update_of_ne (by omega) _ _) hsec
  · exact Function.update_self _ _ _
  · exact at_decimal_congr (fun j hle _ => Function.update_of_ne (by omega) _ _) hpart
  · rw [Function.update_of_ne (by decide), hother 25 (Or.inr (le_refl _)), hshows.closing]

theorem Shows.part {usBefore : Int} (hshows : Shows time usBefore logBuf) :
    Shows time us (fastInt2str us logBuf 19 6) := by
  have hother : ∀ i, i < 19 ∨ 25 ≤ i → fastInt2str us logBuf 19 6 i = logBuf i :=
    fun i hi => fastInt2str_other hi
  apply hshows.keep rfl
  · exact fun i hlt => hother i (by omega)
  · exact at_decimal_congr (fun j _ hlt => hother j (by omega)) hshows.sec
  · rw [hother 18 (by decide), hshows.point]
  · rw [fastInt2str_eq]
    exact Memory.at_putAll _ _ _
  · rw [hother 25 (by decide), hshows.closing]

private theorem shows_all {date : Int} (hdate : IsDate (time / 86400) date) :
    Shows time us (separate (fastInt2str us (fastInt2str (time % 86400 / 3600 * 1000000 +
      time % 3600 / 60 * 1000 + time % 60) (fastInt2str date logBuf 1 8) 10 8) 19 6)) := by
  generalize htime : time % 86400 / 3600 * 1000000 + time % 3600 / 60 * 1000 + time % 60 = clock
  have hwritten := (fastInt2str date logBuf 1 8).at_putAll 10 (decimal 8 clock)
  rw [← fastInt2str_eq, ← htime, decimal_time (by omega) (by omega) (by omega), htime] at hwritten
  obtain ⟨hhour, hrest⟩ := Memory.at_append.mp hwritten
  obtain ⟨-, hrest⟩ := Memory.at_append.mp hrest
  obtain ⟨hmin, hrest⟩ := Memory.at_append.mp hrest
  obtain ⟨-, hsec⟩ := Memory.at_append.mp hrest
  simp only [decimal_length] at hmin hsec
  have hdigits := logBuf.at_putAll 1 (decimal 8 date)
  rw [← fastInt2str_eq] at hdigits
  have hpart := (fastInt2str clock (fastInt2str date logBuf 1 8) 10 8).at_putAll 19 (decimal 6 us)
  rw [← fastInt2str_eq] at hpart
  constructor
  case date =>
    refine ⟨date, hdate, at_decimal_congr (fun j hle hlt => ?_) hdigits⟩
    rw [separate_other (by omega), fastInt2str_other (by omega), fastInt2str_other (by omega)]
  case hour =>
    refine at_decimal_congr (fun j hle hlt => ?_) hhour
    rw [separate_other (by omega), fastInt2str_other (by omega)]
  case min =>
    refine at_decimal_congr (fun j hle hlt => ?_) hmin
    rw [separate_other (by omega), fastInt2str_other (by omega)]
  case sec =>
    refine at_decimal_congr (fun j hle hlt => ?_) hsec
    rw [separate_other (by omega), fastInt2str_other (by omega)]
  case us => exact at_decimal_congr (fun j hle hlt => separate_other (by omega)) hpart
  all_goals rfl

end

private theorem startOfYear_last : Gregorian.startOfYear 10000 = 2932897 := by
  rw [Gregorian.startOfYear_eq]
  rfl

private theorem dateOf_eq {st : Tm} (hyear : 0 ≤ st.year + 1900) (hmon : 0 ≤ st.mon)
    (hmday : 0 ≤ st.mday)
    (hlt : (st.year + 1900) * 10000 + (st.mon + 1) * 100 + st.mday < 2 ^ 31) :
    dateOf st = some ((st.year + 1900) * 10000 + (st.mon + 1) * 100 + st.mday) := by
  have hyears : int32 ((st.year + 1900) * 10000) = some ((st.year + 1900) * 10000) :=
    if_neg (by omega)
  have hmonths : int32 ((st.year + 1900) * 10000 + (st.mon + 1) * 100) =
      some ((st.year + 1900) * 10000 + (st.mon + 1) * 100) := if_neg (by omega)
  have hdays : int32 ((st.year + 1900) * 10000 + (st.mon + 1) * 100 + st.mday) =
      some ((st.year + 1900) * 10000 + (st.mon + 1) * 100 + st.mday) := if_neg (by omega)
  unfold dateOf
  rw [hyears, Option.bind_eq_bind, Option.bind_some, hmonths, Option.bind_some, hdays]

/-- The date and the time of day that `fast_localtime` gives for a time that is not negative. -/
private theorem fastLocaltime_shown {offset secs time : Int} (htime : secs + offset = time)
    (hnonneg : 0 ≤ time) (hlt : time < 86400 * (Gregorian.startOfYear 10000 + 2)) (st : Tm) :
    ∃ fast date, fastLocaltime (time.natAbs + 400) offset secs st = some fast ∧
      dateOf fast = some date ∧ IsDate (time / 86400) date ∧
      fast.hour = time % 86400 / 3600 ∧ fast.min = time % 3600 / 60 ∧ fast.sec = time % 60 := by
  have hlast := startOfYear_last
  obtain ⟨year, hstart, hend⟩ := exists_year (time / 86400)
  have hyear : 1970 ≤ year := by
    by_contra hbefore
    have hyears := (startOfYear_add (show year + 1 ≤ 1970 by omega)).1
    rw [startOfYear_epoch] at hyears
    omega
  have hyear' : year ≤ 10000 := by
    by_contra hbehind
    have hyears := (startOfYear_add (show 10001 ≤ year by omega)).1
    have hnext := Gregorian.startOfYear_succ 10000
    have hlength := (yearLength_bounds 10000).1
    rw [show (10000 : Int) + 1 = 10001 from rfl] at hnext
    omega
  have hnear := first_near hstart hend rfl
  have hdistance : distance (time / 86400) < time.natAbs + 400 := by
    unfold distance
    split_ifs <;> omega
  have hloop := finds_of_first hstart hend rfl ⟨by omega, by omega⟩ hdistance
  have hdays : time.tdiv 86400 = time / 86400 := Int.tdiv_eq_ediv_of_nonneg hnonneg
  have hrem : time.tmod 86400 = time % 86400 := Int.tmod_eq_emod_of_nonneg hnonneg
  have hnext := Gregorian.startOfYear_succ year
  obtain ⟨m, hm, hmonth, hbefore, hbehind⟩ := @monthLoop_spec (Gregorian.isLeap year)
    (time / 86400 - Gregorian.startOfYear year) (by omega) 11 (le_refl _)
    (by rw [daysBefore_year]; omega)
  rw [← isLeapYear_eq] at hmonth
  rw [← hdays, ← htime] at hloop hmonth
  obtain ⟨fast, hfast⟩ := fastLocaltime_of_loop st ⟨by omega, by omega⟩ hloop (by omega) hmonth
  obtain ⟨days, y, m', hloop', hmonth', hyears, hmonths, hmdays, hhour, hmin, hsec⟩ :=
    fastLocaltime_some hfast
  obtain ⟨rfl, rfl⟩ := Prod.mk.inj (fastYearLoop_unique hloop hloop')
  obtain rfl := Option.some.inj (hmonth.symm.trans hmonth')
  rw [htime] at hfast hmdays hmonth hhour hmin hsec
  rw [isLeapYear_eq, monYday_eq _ (by omega), hdays] at hmdays
  rw [isLeapYear_eq, hdays] at hmonth
  have hlength := Gregorian.monthLength_le (Gregorian.isLeap year) m
  rw [monthLength_eq] at hbehind
  have hdate : dateOf fast =
      some ((fast.year + 1900) * 10000 + (fast.mon + 1) * 100 + fast.mday) := by
    apply dateOf_eq
    all_goals omega
  refine ⟨fast, _, hfast, hdate, ⟨year, m, hstart, hend, hmonth, ?_⟩, ?_, ?_, ?_⟩
  · rw [hyears, hmonths, hmdays]
    omega
  · rw [hhour, hrem, Int.tdiv_eq_ediv_of_nonneg (by omega)]
  · rw [hmin, hrem, Int.tmod_eq_emod_of_nonneg (by omega), Int.tdiv_eq_ediv_of_nonneg (by omega)]
    omega
  · rw [hsec, hrem, Int.tmod_eq_emod_of_nonneg (show 0 ≤ time % 86400 by omega),
      Int.tmod_eq_emod_of_nonneg (by omega)]
    omega

theorem IsDate.unique {day date other : Int} (hdate : IsDate day date) (hother : IsDate day other) :
    date = other := by
  obtain ⟨year, m, hstart, hend, hmonth, rfl⟩ := hdate
  obtain ⟨year', m', hstart', hend', hmonth', rfl⟩ := hother
  obtain rfl := year_unique hstart hend hstart' hend'
  obtain rfl := Option.some.inj (hmonth.symm.trans hmonth')
  rfl

/-- The bytes of a date and a time. -/
def stampBytes (date time us : Int) : List UInt8 :=
  [91] ++ (decimal 8 date ++ ([32] ++ (decimal 2 (time % 86400 / 3600) ++ ([58] ++
    (decimal 2 (time % 3600 / 60) ++ ([58] ++ (decimal 2 (time % 60) ++ ([46] ++
      (decimal 6 us ++ [93])))))))))

theorem Shows.read {time us date : Int} {logBuf : Memory} (hshows : Shows time us logBuf)
    (hdate : IsDate (time / 86400) date) : logBuf.read 26 0 = stampBytes date time us := by
  have hlength : (stampBytes date time us).length = 26 := by
    simp only [stampBytes, List.length_append, decimal_length, List.length_singleton]
  have hbytes : logBuf.At 0 (stampBytes date time us) := by
    obtain ⟨other, hother, hdigits⟩ := hshows.date
    obtain rfl := hother.unique hdate
    simp only [stampBytes, Memory.at_append, decimal_length, List.length_singleton]
    exact ⟨⟨hshows.opening, trivial⟩, hdigits, ⟨hshows.blank, trivial⟩, hshows.hour,
      ⟨hshows.hourColon, trivial⟩, hshows.min, ⟨hshows.minColon, trivial⟩, hshows.sec,
      ⟨hshows.point, trivial⟩, hshows.us, ⟨hshows.closing, trivial⟩⟩
  rw [← hlength]
  exact Memory.read_of_at hbytes

theorem Shows.read_eq {time us : Int} {logBuf other : Memory} (hshows : Shows time us logBuf)
    (hother : Shows time us other) : logBuf.read 26 0 = other.read 26 0 := by
  obtain ⟨date, hdate, -⟩ := hshows.date
  rw [hshows.read hdate, hother.read hdate]

section

variable {tzOffset tid hours timestampUs : Int} {state : LogState}

private theorem writeTid_other {logBuf : Memory} {i : Nat} (hlt : i < 26) :
    writeTid tid logBuf i = logBuf i := by
  unfold writeTid
  rw [Function.update_of_ne (by omega), Function.update_of_ne (by omega),
    fastInt2str_other (Or.inl (by omega))]

private theorem updateLogBuf_shown (htz : tzOffset = 3600 * hours)
    (hhours : -24 ≤ hours ∧ hours ≤ 24)
    (hstamp : InYears timestampUs) (hstate : Reached tzOffset state) :
    ∃ next, updateLogBuf tzOffset tid timestampUs state = some next ∧
      Shown tzOffset timestampUs next := by
  obtain ⟨hlow, hhigh⟩ := hstamp
  have hlast := startOfYear_last
  have hsecs : timestampUs.tdiv 1000000 = timestampUs / 1000000 :=
    Int.tdiv_eq_ediv_of_nonneg (by omega)
  have hus : timestampUs.tmod 1000000 = timestampUs % 1000000 :=
    Int.tmod_eq_emod_of_nonneg (by omega)
  have hminutes : (timestampUs / 1000000).tdiv 60 = timestampUs / 1000000 / 60 :=
    Int.tdiv_eq_ediv_of_nonneg (by omega)
  have hsecond : (timestampUs / 1000000).tmod 60 = timestampUs / 1000000 % 60 :=
    Int.tmod_eq_emod_of_nonneg (by omega)
  unfold updateLogBuf
  simp only [hsecs, hus, hminutes, hsecond]
  by_cases hminute : timestampUs / 1000000 / 60 = state.lastMinutes
  · -- the minute of the last call
    obtain ⟨before, hshown⟩ := hstate.resolve_left (by omega)
    have hsameMinute := hshown.minutes
    have hlastSecond := hshown.second
    rw [if_neg (not_not.mpr hminute)]
    by_cases hsame : state.lastSecond = timestampUs / 1000000 % 60
    · have hsameTime : before / 1000000 + tzOffset = timestampUs / 1000000 + tzOffset := by omega
      have hshows := hshown.shows
      rw [hsameTime] at hshows
      rw [if_neg (not_not.mpr hsame)]
      exact ⟨_, rfl, hminute.symm, hsame, hshows.part⟩
    · have hlocal : (timestampUs / 1000000 + tzOffset) % 60 = timestampUs / 1000000 % 60 := by omega
      have hshows := @Shows.second _ (timestampUs / 1000000 + tzOffset) (timestampUs % 1000000)
        _ _ hshown.shows (by omega) (by omega)
      rw [hlocal] at hshows
      rw [if_pos hsame]
      exact ⟨_, rfl, hminute.symm, rfl, hshows⟩
  · -- another minute: all of the time is written
    obtain ⟨fast, date, hfast, hdate, hisDate, hhour, hmin, hsec⟩ := fastLocaltime_shown
      (@rfl _ (timestampUs / 1000000 + tzOffset)) (by omega) (by omega) ⟨0, 0, 0, 0, 0, 0, 0, 0, 0⟩
    simp only [if_pos hminute, hfast, hdate, hhour, hmin, hsec, Option.bind_eq_bind,
      Option.bind_some]
    refine ⟨_, rfl, rfl, rfl, ?_⟩
    dsimp only
    split_ifs
    · exact (shows_all hisDate).congr fun i hlt => writeTid_other hlt
    · exact shows_all hisDate

private theorem run_reached (htz : tzOffset = 3600 * hours) (hhours : -24 ≤ hours ∧ hours ≤ 24)
    {stamps : List Int} (hstamps : ∀ stamp ∈ stamps, InYears stamp)
    (hstate : Reached tzOffset state) :
    ∃ last, stamps.foldlM (fun state stamp => updateLogBuf tzOffset tid stamp state) state =
      some last ∧ Reached tzOffset last := by
  induction stamps generalizing state with
  | nil => exact ⟨state, rfl, hstate⟩
  | cons stamp rest ih =>
    obtain ⟨next, hcall, hshown⟩ :=
      updateLogBuf_shown htz hhours (hstamps stamp List.mem_cons_self) hstate
    obtain ⟨last, hrun, hreached⟩ :=
      ih (fun other hother => hstamps other (List.mem_cons_of_mem _ hother))
        (Or.inr ⟨stamp, hshown⟩)
    refine ⟨last, ?_, hreached⟩
    rw [List.foldlM_cons, hcall]
    exact hrun

end

private theorem sTzOffset_eq {tzMinuteswest : Int}
    (hzone : -1440 ≤ tzMinuteswest ∧ tzMinuteswest ≤ 1440) :
    ∃ hours, sTzOffset tzMinuteswest = 3600 * hours ∧ -24 ≤ hours ∧ hours ≤ 24 := by
  have hhours : gTimezone tzMinuteswest = -tzMinuteswest.tdiv 60 := Int.tdiv_neg _ _
  have hparts := Int.mul_tdiv_add_tmod tzMinuteswest 60
  have hrem : -60 < tzMinuteswest.tmod 60 ∧ tzMinuteswest.tmod 60 < 60 := by
    rw [Int.tmod_eq_emod]
    split_ifs <;> omega
  refine ⟨gTimezone tzMinuteswest, Int.mul_comm _ _, ?_⟩
  omega

/-- After any calls, in any zone that is at most a day away, a call leaves the same time in front of
the line as it does in a state that is zeroed. -/
theorem updateLogBuf_fresh {tzMinuteswest : Int}
    (hzone : -1440 ≤ tzMinuteswest ∧ tzMinuteswest ≤ 1440) (tid : Int) {stamps : List Int}
    (hstamps : ∀ stamp ∈ stamps, InYears stamp) {timestampUs : Int}
    (hstamp : InYears timestampUs) :
    ∃ state next fresh,
      stamps.foldlM (fun state stamp => updateLogBuf (sTzOffset tzMinuteswest) tid stamp state)
        zeroed = some state ∧
      updateLogBuf (sTzOffset tzMinuteswest) tid timestampUs state = some next ∧
      updateLogBuf (sTzOffset tzMinuteswest) tid timestampUs zeroed = some fresh ∧
      next.logBuf.read 26 0 = fresh.logBuf.read 26 0 := by
  obtain ⟨hours, htz, hhours⟩ := sTzOffset_eq hzone
  obtain ⟨state, hrun, hreached⟩ := @run_reached _ tid _ zeroed htz hhours _ hstamps (Or.inl rfl)
  obtain ⟨next, hnext, hshown⟩ := @updateLogBuf_shown _ tid _ _ _ htz hhours hstamp hreached
  obtain ⟨fresh, hfresh, hshown'⟩ :=
    @updateLogBuf_shown _ tid _ _ zeroed htz hhours hstamp (Or.inl rfl)
  exact ⟨state, next, fresh, hrun, hnext, hfresh, hshown.shows.read_eq hshown'.shows⟩

private theorem inYears_of {timestampUs : Int} (hlow : 86400000000 ≤ timestampUs)
    (hhigh : timestampUs < 253402387200000000) : InYears timestampUs := by
  unfold InYears
  rw [startOfYear_last]
  omega

/-- A part of a second, another second and a minute that has gone by. -/
theorem updateLogBuf_fresh_back : ∃ state next fresh,
    [1345606467456789, 1345606467456790, 1345606468000000].foldlM
      (fun state stamp => updateLogBuf (sTzOffset (-480)) 12345 stamp state) zeroed = some state ∧
    updateLogBuf (sTzOffset (-480)) 12345 1345606401000001 state = some next ∧
    updateLogBuf (sTzOffset (-480)) 12345 1345606401000001 zeroed = some fresh ∧
    next.logBuf.read 26 0 = fresh.logBuf.read 26 0 := by
  apply updateLogBuf_fresh
  · decide
  · apply List.forall_mem_cons.mpr ⟨inYears_of (by decide) (by decide), _⟩
    apply List.forall_mem_cons.mpr ⟨inYears_of (by decide) (by decide), _⟩
    exact List.forall_mem_singleton.mpr (inYears_of (by decide) (by decide))
  · exact inYears_of (by decide) (by decide)

/-- "[20120822 11:34:27.456789]" -/
example : (updateLogBuf (sTzOffset (-480)) 12345 1345606467456789 zeroed).map
    (fun state => state.logBuf.read 26 0) =
    some [91, 50, 48, 49, 50, 48, 56, 50, 50, 32, 49, 49, 58, 51, 52, 58, 50, 55, 46, 52, 53, 54,
      55, 56, 57, 93] := by decide

end Libsax.Logger
