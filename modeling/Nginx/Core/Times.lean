import Nginx.Core.Printf
import Nginx.Library.Gregorian

namespace Nginx.Times

open Gregorian Printf

-- ngx_tm_t, where months are counted from 1 on
structure Tm where
  sec : Nat
  min : Nat
  hour : Nat
  mday : Nat
  mon : Nat
  year : Nat
  wday : Nat
deriving DecidableEq

-- The year that begins with March and its day: some of its first days go to the year before, and the last ones to the year
-- behind, so that yday may be negative.
def marchDate (days : Nat) : Nat × Nat :=
  let year := (days + 2) * 400 / (365 * 400 + 100 - 4 + 1)
  let yday : Int := days - (365 * year + year / 4 - year / 100 + year / 400 : Nat)
  if yday < 0 then
    let leap : Int := if year % 4 = 0 ∧ (year % 100 ≠ 0 ∨ year % 400 = 0) then 1 else 0
    (year - 1, (365 + leap + yday).toNat)
  else (year, yday.toNat)

-- The month and the day of the month, where the months from March on are the first ones of the year
def ofMarchDate (tm : Tm) (year yday : Nat) : Tm :=
  let mon := (yday + 31) * 10 / 306
  let mday := yday + 1 - (367 * mon / 12 - 30)
  if 306 ≤ yday then { tm with mday, mon := mon - 10, year := year + 1 } else { tm with mday, mon := mon + 2, year }

-- ngx_gmtime, which is for a time_t that is not negative. No number wraps round before the year has more than 31 bits.
def gmtime (t : Nat) : Tm :=
  let n := t
  let days := n / 86400
  let wday := (4 + days) % 7
  let n := n % 86400
  let hour := n / 3600
  let n := n % 3600
  let min := n / 60
  let sec := n % 60
  let date := marchDate (days + 719527 - (31 + 28))
  ofMarchDate { sec, min, hour, mday := 0, mon := 0, year := 0, wday } date.1 date.2

def week : List Bytes := ["Sun", "Mon", "Tue", "Wed", "Thu", "Fri", "Sat"].map ngxString

def months : List Bytes :=
  ["Jan", "Feb", "Mar", "Apr", "May", "Jun", "Jul", "Aug", "Sep", "Oct", "Nov", "Dec"].map ngxString

-- ngx_http_time: the bytes written to buf, which is an address
def httpTime (buf t : Nat) : Option Bytes :=
  let tm := gmtime t
  sprintf buf (ngxString "%s, %02d %s %4d %02d:%02d:%02d GMT")
    [.ptr (week.getD tm.wday [] ++ [0]), .word tm.mday, .ptr (months.getD (tm.mon - 1) [] ++ [0]), .word tm.year,
      .word tm.hour, .word tm.min, .word tm.sec]

-- The last second of the year 9999
def lastTime : Nat := 253402300799

-- The month and the day of the month that a day of a year from March on has
theorem yday_month : ∀ yday < 366,
    (1 ≤ (yday + 31) * 10 / 306 ∧ (yday + 31) * 10 / 306 ≤ 12) ∧ (306 ≤ yday ↔ 11 ≤ (yday + 31) * 10 / 306) ∧
      monthStart ((yday + 31) * 10 / 306) ≤ yday ∧
      yday + 1 - monthStart ((yday + 31) * 10 / 306) ≤
        if (yday + 31) * 10 / 306 = 12 then if yday = 365 then 29 else 28
        else monthDays 1 (if 306 ≤ yday then (yday + 31) * 10 / 306 - 10 else (yday + 31) * 10 / 306 + 2) := by
  decide +kernel

theorem monthDays_eq {year month : Nat} (h : month ≠ 2) : monthDays year month = monthDays 1 month := by
  rw [monthDays, monthDays, if_neg h, if_neg h]

theorem marchDate_eq {days : Nat} (hpos : 1 ≤ days) :
    marchDays (marchDate days).1 + (marchDate days).2 = days ∧ (marchDate days).2 < yearDays ((marchDate days).1 + 1) := by
  rw [marchDate]
  have hlen : 365 * 400 + 100 - 4 + 1 = 146097 := by decide
  rw [hlen]
  generalize he : (days + 2) * 400 / 146097 = year
  dsimp only
  rw [← marchDays]
  by_cases hyear : year = 0
  · subst hyear
    have hzero : marchDays 0 = 0 := rfl
    have hone : yearDays (0 + 1) = 365 := rfl
    rw [hzero, if_neg (by omega)]
    dsimp only
    rw [hzero, hone]
    omega
  obtain ⟨hlow, hhigh⟩ := marchYear_estimate he.symm (by omega)
  by_cases hneg : (days : Int) - marchDays year < 0
  · have hsucc := marchDays_succ (year - 1)
    have hsame : year - 1 + 1 = year := by omega
    have hleap : (365 + (if year % 4 = 0 ∧ (year % 100 ≠ 0 ∨ year % 400 = 0) then 1 else 0) : Int) = yearDays year := by
      rw [yearDays]
      by_cases h : IsLeap year
      · rw [if_pos h, if_pos (by exact h)]
        rfl
      · rw [if_neg h, if_neg (by exact h)]
        rfl
    rw [hsame] at hsucc
    rw [if_pos hneg, hleap]
    dsimp only
    rw [hsame]
    omega
  · have hsucc := marchDays_succ year
    rw [if_neg hneg]
    dsimp only
    omega

-- The date of a day of a year that begins with March
theorem date_of_yday {year yday : Nat} (h : yday < yearDays (year + 1)) :
    let mon := (yday + 31) * 10 / 306
    let mday := yday + 1 - monthStart mon
    let month := if 306 ≤ yday then mon - 10 else mon + 2
    let year' := if 306 ≤ yday then year + 1 else year
    Valid year' month mday ∧ marchYear year' month = year ∧ monthStart (marchMonth month) + mday = yday + 1 := by
  have hyear : yearDays (year + 1) ≤ 366 := by
    rw [yearDays]
    split <;> decide
  obtain ⟨⟨hpos, hle⟩, hbehind, hstart, hday⟩ := yday_month yday (by omega)
  generalize (yday + 31) * 10 / 306 = mon at *
  dsimp only
  by_cases hlate : 306 ≤ yday
  · have hmon := hbehind.mp hlate
    rw [if_pos hlate] at hday
    rw [if_pos hlate, if_pos hlate]
    have hback : marchMonth (mon - 10) = mon := by
      rw [marchMonth, if_pos (by omega)]
      omega
    have hbackYear : marchYear (year + 1) (mon - 10) = year := by
      rw [marchYear, if_pos (by omega)]
      rfl
    refine ⟨⟨by omega, by omega, by omega, ?_⟩, hbackYear, by rw [hback]; omega⟩
    by_cases hfeb : mon = 12
    · subst hfeb
      rw [if_pos rfl] at hday
      have hfebruary : monthDays (year + 1) (12 - 10) = if IsLeap (year + 1) then 29 else 28 := if_pos rfl
      rw [hfebruary]
      rw [yearDays] at h
      split at hday
      next hlast =>
          split at h
          next hleap =>
              simp only [if_pos hleap]
              exact hday
          next => omega
      next =>
          split
          · omega
          · exact hday
    · rw [if_neg hfeb] at hday
      rw [monthDays_eq (by omega)]
      exact hday
  · have hmon : mon ≤ 10 := by
      by_contra hbig
      exact hlate (hbehind.mpr (by omega))
    rw [if_neg hlate, if_neg (by omega)] at hday
    rw [if_neg hlate, if_neg hlate]
    have hback : marchMonth (mon + 2) = mon := by
      rw [marchMonth, if_neg (by omega)]
      rfl
    have hbackYear : marchYear year (mon + 2) = year := if_neg (by omega)
    refine ⟨⟨by omega, by omega, by omega, ?_⟩, hbackYear, by rw [hback]; omega⟩
    rw [monthDays_eq (by omega)]
    exact hday

-- The date and the time of day of a time, and its day of the week; January 1, 1970 was a Thursday.
structure IsDate (t : Nat) (tm : Tm) : Prop where
  valid : Valid tm.year tm.mon tm.mday
  year_ge : 1970 ≤ tm.year
  time_eq : t = dayNumber 1970 tm.year tm.mon tm.mday * 86400 + tm.hour * 3600 + tm.min * 60 + tm.sec
  hour_lt : tm.hour < 24
  min_lt : tm.min < 60
  sec_lt : tm.sec < 60
  wday_eq : tm.wday = (4 + dayNumber 1970 tm.year tm.mon tm.mday) % 7

theorem ofMarchDate_eq (tm : Tm) (year yday : Nat) :
    ofMarchDate tm year yday =
      { tm with
        mday := yday + 1 - monthStart ((yday + 31) * 10 / 306)
        mon := if 306 ≤ yday then (yday + 31) * 10 / 306 - 10 else (yday + 31) * 10 / 306 + 2
        year := if 306 ≤ yday then year + 1 else year } := by
  rw [ofMarchDate]
  by_cases hlate : 306 ≤ yday
  · rw [if_pos hlate, if_pos hlate, if_pos hlate, monthStart]
  · rw [if_neg hlate, if_neg hlate, if_neg hlate, monthStart]

-- The days of a date since the first of March of the year 0
theorem march_number {year mon mday : Nat} (hvalid : Valid year mon mday) (hge : 1970 ≤ year) :
    dayNumber 1970 year mon mday + 719469 = marchDays (marchYear year mon) + monthStart (marchMonth mon) + mday := by
  have hnumber := dayNumber_march (by decide) hge hvalid.month_pos hvalid.month_le hvalid.day_pos
  have h1969 : marchDays (1970 - 1) = 719162 := rfl
  omega

theorem gmtime_isDate (t : Nat) : IsDate t (gmtime t) := by
  have hpos : 1 ≤ t / 86400 + 719527 - (31 + 28) := by omega
  obtain ⟨hdays, hyday⟩ := marchDate_eq hpos
  obtain ⟨hvalid, hmarch, hmonth⟩ := date_of_yday hyday
  rw [gmtime, ofMarchDate_eq]
  generalize (marchDate (t / 86400 + 719527 - (31 + 28))).1 = year at hdays hyday hvalid hmarch ⊢
  generalize (marchDate (t / 86400 + 719527 - (31 + 28))).2 = yday at hdays hyday hvalid hmarch hmonth ⊢
  generalize (if 306 ≤ yday then (yday + 31) * 10 / 306 - 10 else (yday + 31) * 10 / 306 + 2) = mon at hvalid hmarch hmonth ⊢
  generalize hyear : (if 306 ≤ yday then year + 1 else year) = year' at hvalid hmarch ⊢
  generalize yday + 1 - monthStart ((yday + 31) * 10 / 306) = mday at hvalid hmonth ⊢
  have hge : 1970 ≤ year' := by
    obtain ⟨hhigh, -⟩ := marchDays_bounds year
    have hlen : yearDays (year + 1) ≤ 366 := by
      rw [yearDays]
      split <;> decide
    have h1969 : marchDays 1969 = 719162 := rfl
    by_cases heq : year = 1969
    · rw [heq, h1969] at hdays
      rw [if_pos (by omega)] at hyear
      omega
    · split at hyear
      · omega
      · omega
  have hday : dayNumber 1970 year' mon mday = t / 86400 := by
    have hnumber := march_number hvalid hge
    rw [hmarch] at hnumber
    omega
  refine ⟨hvalid, hge, ?_, ?_, ?_, ?_, by dsimp only; rw [hday]⟩
  · dsimp only
    rw [hday]
    omega
  · dsimp only
    omega
  · dsimp only
    omega
  · dsimp only
    omega

-- The years to 9999 have four digits.
theorem gmtime_year_lt {t : Nat} (h : t ≤ lastTime) : (gmtime t).year < 10000 := by
  have hdate := gmtime_isDate t
  have hnumber := march_number hdate.valid hdate.year_ge
  have htime := hdate.time_eq
  have hday := hdate.valid.day_pos
  have hmonth := hdate.valid.month_pos
  have hlow := (marchDays_bounds (marchYear (gmtime t).year (gmtime t).mon)).2
  have h9999 : marchDays 9999 = 3652059 := rfl
  rw [lastTime] at h
  by_contra hbig
  by_cases heq : marchYear (gmtime t).year (gmtime t).mon = 9999
  · have hmon : (gmtime t).mon ≤ 2 := by
      by_contra hlate
      rw [marchYear, if_neg hlate] at heq
      omega
    have hstart : 306 ≤ monthStart (marchMonth (gmtime t).mon) := by
      rw [marchMonth, if_pos hmon, monthStart]
      omega
    rw [heq, h9999] at hnumber
    omega
  · have hlarge : 10000 ≤ marchYear (gmtime t).year (gmtime t).mon := by
      rw [marchYear] at heq ⊢
      split at heq
      next hmon =>
          rw [if_pos hmon]
          omega
      next hmon =>
          rw [if_neg hmon]
          omega
    omega

-- The decimal digits of a number of two digits, and of four
def two (n : Nat) : Bytes := [UInt8.ofNat (48 + n / 10), UInt8.ofNat (48 + n % 10)]

def four (n : Nat) : Bytes := two (n / 100) ++ two (n % 100)

theorem emit_two : ∀ n < 100, emit (.num false n 48 0 2) = some (two n) := by decide

theorem emit_four {n : Nat} (hlow : 1000 ≤ n) (hhigh : n < 10000) : emit (.num false n 32 0 4) = some (four n) := by
  have hdigits : temp 10 0 int64Len n [] = four n := by
    have h1 : n / 10 ≠ 0 := by omega
    have h2 : n / 10 / 10 ≠ 0 := by omega
    have h3 : n / 10 / 10 / 10 ≠ 0 := by omega
    have h4 : n / 10 / 10 / 10 / 10 = 0 := by omega
    have hdigit : ∀ d, d < 10 → digit 0 d = UInt8.ofNat (48 + d) := fun d hd => if_pos hd
    have hmod : ∀ m, m % 10 < 10 := fun m => Nat.mod_lt m (by decide)
    rw [int64Len, temp, if_neg h1, temp, if_neg h2, temp, if_neg h3, temp, if_pos h4, hdigit _ (hmod _), hdigit _ (hmod _),
      hdigit _ (hmod _), hdigit _ (hmod _)]
    have ha : n / 10 / 10 / 10 % 10 = n / 100 / 10 := by omega
    have hb : n / 10 / 10 % 10 = n / 100 % 10 := by omega
    have hc : n / 10 % 10 = n % 100 / 10 := by omega
    have hd : n % 10 = n % 100 % 10 := by omega
    rw [ha, hb, hc, hd]
    rfl
  rw [emit, if_pos rfl, hdigits]
  rfl

theorem word_small {n : Nat} (h : n < 2 ^ 31) : (((n : BitVec 64)).setWidth 32).toInt = n := by
  have hnat : (((n : BitVec 64)).setWidth 32).toNat = n := by
    simp only [BitVec.natCast_eq_ofNat, BitVec.toNat_setWidth, BitVec.toNat_ofNat]
    omega
  rw [BitVec.toInt_eq_toNat_of_lt (by omega), hnat]

-- %02d and %4d
theorem renders_two {fmt : Bytes} {args : List Arg} {w : Bytes} (h : Renders fmt args w) {n : Nat} (hn : n < 100) :
    Renders (37 :: 48 :: 50 :: 100 :: fmt) (.word (n : BitVec 64) :: args) (two n ++ w) := by
  refine .item (i := .num ((((n : BitVec 64)).setWidth 32).toInt < 0) (((n : BitVec 64)).setWidth 32).toInt.natAbs 48 0 2) rfl ?_ h
  rw [word_small (by omega), decide_eq_false (by omega), Int.natAbs_natCast]
  exact emit_two n hn

theorem renders_four {fmt : Bytes} {args : List Arg} {w : Bytes} (h : Renders fmt args w) {n : Nat} (hlow : 1000 ≤ n)
    (hhigh : n < 10000) : Renders (37 :: 52 :: 100 :: fmt) (.word (n : BitVec 64) :: args) (four n ++ w) := by
  refine .item (i := .num ((((n : BitVec 64)).setWidth 32).toInt < 0) (((n : BitVec 64)).setWidth 32).toInt.natAbs 32 0 4) rfl ?_ h
  rw [word_small (by omega), decide_eq_false (by omega), Int.natAbs_natCast]
  exact emit_four hlow hhigh

theorem renders_name {fmt : Bytes} {args : List Arg} {w : Bytes} (h : Renders fmt args w) {name : Bytes} (hname : 0 ∉ name) :
    Renders (37 :: 115 :: fmt) (.ptr (name ++ [0]) :: args) (name ++ w) := by
  have hstop : (name ++ [0]).takeWhile (· ≠ 0) = name := by
    rw [List.takeWhile_append_of_pos]
    · simp
    · intro c hc
      exact decide_eq_true fun heq => hname (heq ▸ hc)
  have hrender := h.cstr (name ++ [0]) (by simp)
  rwa [hstop] at hrender

-- The parts of the spellings of a date
def weekName (wday : Nat) : Bytes := week.getD wday []

def monthName (mon : Nat) : Bytes := months.getD (mon - 1) []

def clock (hour min sec : Nat) : Bytes := two hour ++ 58 :: (two min ++ 58 :: two sec)

-- Sun, 06 Nov 1994 08:49:37 GMT
def httpText (tm : Tm) : Bytes :=
  weekName tm.wday ++ 44 :: 32 :: (two tm.mday ++ 32 :: (monthName tm.mon ++ 32 :: (four tm.year ++ 32 ::
    (clock tm.hour tm.min tm.sec ++ ngxString " GMT"))))

theorem week_name : ∀ wday < 7, 0 ∉ weekName wday ∧ (weekName wday).length = 3 := by decide

theorem month_name : ∀ mon, 1 ≤ mon → mon ≤ 12 → 0 ∉ monthName mon ∧ (monthName mon).length = 3 := by
  intro mon hpos hle
  have hall : ∀ k < 12, 0 ∉ monthName (k + 1) ∧ (monthName (k + 1)).length = 3 := by decide +kernel
  have hk := hall (mon - 1) (by omega)
  rwa [Nat.sub_add_cancel hpos] at hk

theorem monthDays_le (year month : Nat) : monthDays year month ≤ 31 := by
  rw [monthDays]
  split
  · split <;> decide
  · split <;> decide

theorem format_eq : ngxString "%s, %02d %s %4d %02d:%02d:%02d GMT" =
    37 :: 115 :: ([44, 32] ++ 37 :: 48 :: 50 :: 100 :: ([32] ++ 37 :: 115 :: ([32] ++ 37 :: 52 :: 100 :: ([32] ++
      37 :: 48 :: 50 :: 100 :: ([58] ++ 37 :: 48 :: 50 :: 100 :: ([58] ++ 37 :: 48 :: 50 :: 100 :: ngxString " GMT")))))) := by
  decide

theorem httpText_length {tm : Tm} (hweek : (weekName tm.wday).length = 3) (hmonth : (monthName tm.mon).length = 3) :
    (httpText tm).length = 29 := by
  have hgmt : (ngxString " GMT").length = 4 := by decide
  simp only [httpText, clock, four, two, List.length_append, List.length_cons, List.length_nil, hweek, hmonth, hgmt]

theorem httpText_parts (tm : Tm) : weekName tm.wday ++ ([44, 32] ++ (two tm.mday ++ ([32] ++ (monthName tm.mon ++ ([32] ++
    (four tm.year ++ ([32] ++ (two tm.hour ++ ([58] ++ (two tm.min ++ ([58] ++ (two tm.sec ++ ngxString " GMT")))))))))))) =
      httpText tm := by
  simp only [httpText, clock, List.append_assoc, List.cons_append, List.nil_append]

-- ngx_http_time writes 29 bytes.
theorem httpTime_eq {t buf : Nat} (ht : t ≤ lastTime) (hbuf : buf + 29 < 2 ^ 64) :
    httpTime buf t = some (httpText (gmtime t)) := by
  have hdate := gmtime_isDate t
  have hyear := gmtime_year_lt ht
  have hwday : (gmtime t).wday < 7 := by
    rw [hdate.wday_eq]
    exact Nat.mod_lt _ (by decide)
  have hmday := Nat.le_trans hdate.valid.day_le (monthDays_le _ _)
  have hmonth := month_name _ hdate.valid.month_pos hdate.valid.month_le
  have hweek := week_name _ hwday
  have hge := hdate.year_ge
  have hhour := hdate.hour_lt
  have hmin := hdate.min_lt
  have hsec := hdate.sec_lt
  have hspace : (37 : UInt8) ∉ [32] := by decide
  have hcolon : (37 : UInt8) ∉ [58] := by decide
  have hcomma : (37 : UInt8) ∉ [44, 32] := by decide
  have hend : Renders (ngxString " GMT") [] (ngxString " GMT") := by
    have htext := (Renders.done []).text (ngxString " GMT") (by decide)
    rwa [List.append_nil] at htext
  have hs := renders_two hend (n := (gmtime t).sec) (by omega)
  have hm := renders_two (hs.text [58] hcolon) (n := (gmtime t).min) (by omega)
  have hh := renders_two (hm.text [58] hcolon) (n := (gmtime t).hour) (by omega)
  have hy := renders_four (hh.text [32] hspace) (n := (gmtime t).year) (by omega) hyear
  have hb := renders_name (hy.text [32] hspace) hmonth.1
  have hd := renders_two (hb.text [32] hspace) (n := (gmtime t).mday) (by omega)
  have hw := renders_name (hd.text [44, 32] hcomma) hweek.1
  rw [httpText_parts, ← format_eq] at hw
  have hlen := httpText_length hweek.2 hmonth.2
  have htake := vslprintf_eq_take hw (2 ^ 64 - 1 - buf)
  rw [List.take_of_length_le (by omega)] at htake
  exact htake

end Nginx.Times
