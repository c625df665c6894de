import Nginx.Core.Number
import Nginx.Core.Times

namespace Nginx.HttpParseTime

open Gregorian Number Times

-- mday
def daysIn : List Nat := [31, 28, 31, 30, 31, 30, 31, 31, 30, 31, 30, 31]

-- The variables; months are counted from 0 on.
structure Fields where
  day : Nat
  month : Nat
  year : Nat
  hour : Nat
  min : Nat
  sec : Nat
deriving DecidableEq

-- The parts that p is moved over, where none is NGX_ERROR. A text that ends in a part is not read behind its end, since the
-- lengths are checked before.
def digit : Bytes → Option (Nat × Bytes)
  | [] => none
  | c :: p => (decimalDigit c).map (·, p)

def twoDigits (p : Bytes) : Option (Nat × Bytes) := do
  let (a, p) ← digit p
  let (b, p) ← digit p
  some (a * 10 + b, p)

def fourDigits (p : Bytes) : Option (Nat × Bytes) := do
  let (a, p) ← twoDigits p
  let (b, p) ← twoDigits p
  some (a * 100 + b, p)

def expect (c : UInt8) : Bytes → Option Bytes
  | [] => none
  | b :: p => if b = c then some p else none

-- switch (*p)
def monthOf (c c1 c2 : UInt8) : Option Nat :=
  match Char.ofUInt8 c with
  | 'J' => some (if c1 = 97 then 0 else if c2 = 110 then 5 else 6)
  | 'F' => some 1
  | 'M' => some (if c2 = 114 then 2 else 4)
  | 'A' => some (if c1 = 112 then 3 else 7)
  | 'S' => some 8
  | 'O' => some 9
  | 'N' => some 10
  | 'D' => some 11
  | _ => none

def month : Bytes → Option (Nat × Bytes)
  | c :: c1 :: c2 :: p => (monthOf c c1 c2).map (·, p)
  | _ => none

-- The hour, the minute and the second, behind a space
def time (p : Bytes) : Option ((Nat × Nat × Nat) × Bytes) := do
  let p ← expect 32 p
  let (hour, p) ← twoDigits p
  let p ← expect 58 p
  let (min, p) ← twoDigits p
  let p ← expect 58 p
  let (sec, p) ← twoDigits p
  some ((hour, min, sec), p)

-- year += (year < 70) ? 2000 : 1900
def century (year : Nat) : Nat := year + if year < 70 then 2000 else 1900

def shortYear (p : Bytes) : Option (Nat × Bytes) := do
  let (year, p) ← twoDigits p
  some (century year, p)

-- What is read behind the day, where the month ends with the byte that it begins with
def rfcRest (day : Nat) (c : UInt8) (readYear : Bytes → Option (Nat × Bytes)) (p : Bytes) : Option Fields := do
  let (month, p) ← month p
  let p ← expect c p
  let (year, p) ← readYear p
  let ((hour, min, sec), _) ← time p
  some { day, month, year, hour, min, sec }

-- Tue, 10 Nov 2002 23:50:13 and Tuesday, 10-Dec-02 23:50:13, which differ in what stands behind the day
def rfc (p : Bytes) : Option Fields := do
  let (day, p) ← twoDigits p
  if p.headD 0 = 32 then if p.length < 18 then none else rfcRest day 32 fourDigits p.tail
  else if p.headD 0 = 45 then rfcRest day 45 shortYear p.tail
  else none

-- A day of one digit or two
def isocDay (p : Bytes) : Option (Nat × Bytes) := do
  let (a, p) ← digit p
  if p.headD 0 = 32 then some (a, p) else (digit p).map fun (b, p) => (a * 10 + b, p)

-- Tue Dec 10 23:50:13 2002
def isoc (p : Bytes) : Option Fields := do
  let (month, p) ← month p
  let p := p.tail
  let (day, p) ← isocDay (if p.headD 0 = 32 then p.tail else p)
  if p.length < 14 then none else
  let ((hour, min, sec), p) ← time p
  let p ← expect 32 p
  let (year, _) ← fourDigits p
  some { day, month, year, hour, min, sec }

-- What is read before the numbers are checked
def fields (value : Bytes) : Option Fields :=
  match value.dropWhile (fun c => c ≠ 44 ∧ c ≠ 32) with
  | [] => none
  | c :: p =>
      let p := p.dropWhile (· = 32)
      if p.length < 18 then none else if c = 32 then isoc p else rfc p

def dayAllowed (f : Fields) : Prop :=
  if f.day = 29 ∧ f.month = 1 then ¬(f.year &&& 3 ≠ 0 ∨ (f.year % 100 = 0 ∧ f.year % 400 ≠ 0))
  else f.day ≤ daysIn.getD f.month 0

instance (f : Fields) : Decidable (dayAllowed f) := inferInstanceAs (Decidable (ite _ _ _))

-- Gauss' formula, where the year before the year 0 wraps round
def timeOf (f : Fields) : Int :=
  let month : Nat := if f.month ≤ 1 then f.month + 11 else f.month - 1
  let year : Nat := if f.month ≤ 1 then toSize (f.year - 1) else f.year
  let days : Int := 365 * year + (year / 4 : Nat) - (year / 100 : Nat) + (year / 400 : Nat) + (367 * month / 12 : Nat) - 30 +
    f.day - 1 - 719527 + 31 + 28
  toInt64 (days * 86400 + f.hour * 3600 + f.min * 60 + f.sec)

-- ngx_http_parse_time, where -1 is NGX_ERROR
def parseTime (value : Bytes) : Int :=
  match fields value with
  | none => -1
  | some f => if 23 < f.hour ∨ 59 < f.min ∨ 59 < f.sec then -1 else if dayAllowed f then timeOf f else -1

-- The spellings, behind a ',' and behind a ' '. The month is three letters that monthOf knows, and whatever follows the last
-- number is not read.
inductive Body : UInt8 → Bytes → Fields → Prop where
  | rfc822 {c c1 c2 : UInt8} {f : Fields} (rest : Bytes) (hday : f.day < 100) (hmonth : monthOf c c1 c2 = some f.month)
      (hyear : f.year < 10000) (htime : f.hour < 100 ∧ f.min < 100 ∧ f.sec < 100) :
      Body 44 (two f.day ++ 32 :: c :: c1 :: c2 :: 32 :: (four f.year ++ 32 :: (clock f.hour f.min f.sec ++ rest))) f
  | rfc850 {year : Nat} {c c1 c2 : UInt8} {f : Fields} (rest : Bytes) (hday : f.day < 100)
      (hmonth : monthOf c c1 c2 = some f.month) (hyear : year < 100) (hcentury : f.year = century year)
      (htime : f.hour < 100 ∧ f.min < 100 ∧ f.sec < 100) :
      Body 44 (two f.day ++ 45 :: c :: c1 :: c2 :: 45 :: (two year ++ 32 :: (clock f.hour f.min f.sec ++ rest))) f
  | isoc {day : Bytes} {c c1 c2 : UInt8} {f : Fields} (pad : Bytes) (c3 : UInt8) (rest : Bytes)
      (hmonth : monthOf c c1 c2 = some f.month) (hpad : pad = [] ∨ pad = [32])
      (hday : f.day < 10 ∧ day = [UInt8.ofNat (48 + f.day)] ∨ f.day < 100 ∧ day = two f.day) (hyear : f.year < 10000)
      (htime : f.hour < 100 ∧ f.min < 100 ∧ f.sec < 100) :
      Body 32 (c :: c1 :: c2 :: c3 :: (pad ++ (day ++ 32 :: (clock f.hour f.min f.sec ++ 32 :: (four f.year ++ rest))))) f

-- A text that spells numbers, behind the name of a day
def Spells (text : Bytes) (f : Fields) : Prop :=
  ∃ name c spaces body, (44 ∉ name ∧ 32 ∉ name) ∧ text = name ++ c :: (List.replicate spaces 32 ++ body) ∧ Body c body f

theorem decimalDigit_ofNat : ∀ n < 10, decimalDigit (UInt8.ofNat (48 + n)) = some n := by decide

theorem decimalDigit_some (c : UInt8) : ∀ n, decimalDigit c = some n → n < 10 ∧ c = UInt8.ofNat (48 + n) := by
  intro n h
  have hall := byte_cases (P := fun c => (decimalDigit c).all fun n => n < 10 ∧ c = UInt8.ofNat (48 + n)) (by decide +kernel) c
  rw [h] at hall
  simpa using hall

theorem digit_eq_some {p q : Bytes} {n : Nat} : digit p = some (n, q) ↔ n < 10 ∧ p = UInt8.ofNat (48 + n) :: q := by
  constructor
  · intro h
    cases p with
    | nil => exact nomatch h
    | cons c p =>
        obtain ⟨d, hd, heq⟩ := Option.map_eq_some_iff.mp h
        cases heq
        obtain ⟨hlt, hc⟩ := decimalDigit_some c n hd
        exact ⟨hlt, by rw [hc]⟩
  · rintro ⟨hlt, rfl⟩
    rw [digit, decimalDigit_ofNat n hlt]
    rfl

theorem two_digits (a b : Nat) (hb : b < 10) : two (a * 10 + b) = [UInt8.ofNat (48 + a), UInt8.ofNat (48 + b)] := by
  have hdiv : (a * 10 + b) / 10 = a := by omega
  have hmod : (a * 10 + b) % 10 = b := by omega
  rw [two, hdiv, hmod]

theorem twoDigits_eq_some {p q : Bytes} {n : Nat} : twoDigits p = some (n, q) ↔ n < 100 ∧ p = two n ++ q := by
  simp only [twoDigits, Option.bind_eq_bind, Option.bind_eq_some_iff, Prod.exists, digit_eq_some, Option.some.injEq, Prod.mk.injEq]
  constructor
  · rintro ⟨a, p1, ⟨ha, rfl⟩, b, p2, ⟨hb, rfl⟩, rfl, rfl⟩
    refine ⟨by omega, ?_⟩
    rw [two_digits a b hb]
    rfl
  · rintro ⟨hlt, rfl⟩
    exact ⟨n / 10, _, ⟨by omega, rfl⟩, n % 10, q, ⟨by omega, rfl⟩, by omega, rfl⟩

theorem fourDigits_eq_some {p q : Bytes} {n : Nat} : fourDigits p = some (n, q) ↔ n < 10000 ∧ p = four n ++ q := by
  simp only [fourDigits, Option.bind_eq_bind, Option.bind_eq_some_iff, Prod.exists, twoDigits_eq_some, Option.some.injEq, Prod.mk.injEq]
  constructor
  · rintro ⟨a, p1, ⟨ha, rfl⟩, b, p2, ⟨hb, rfl⟩, rfl, rfl⟩
    have hdiv : (a * 100 + b) / 100 = a := by omega
    have hmod : (a * 100 + b) % 100 = b := by omega
    refine ⟨by omega, ?_⟩
    rw [four, hdiv, hmod, List.append_assoc]
  · rintro ⟨hlt, rfl⟩
    exact ⟨n / 100, _, ⟨by omega, List.append_assoc ..⟩, n % 100, q, ⟨by omega, rfl⟩, by omega, rfl⟩

theorem expect_eq_some {c : UInt8} {p q : Bytes} : expect c p = some q ↔ p = c :: q := by
  cases p with
  | nil => simp [expect]
  | cons b p =>
      rw [expect]
      split
      next h => simp [h]
      next h => simp [h]

theorem month_eq_some {p q : Bytes} {m : Nat} :
    month p = some (m, q) ↔ ∃ c c1 c2, p = c :: c1 :: c2 :: q ∧ monthOf c c1 c2 = some m := by
  constructor
  · intro h
    match p, h with
    | c :: c1 :: c2 :: p, h =>
        obtain ⟨k, hk, heq⟩ := Option.map_eq_some_iff.mp h
        cases heq
        exact ⟨c, c1, c2, rfl, hk⟩
  · rintro ⟨c, c1, c2, rfl, hm⟩
    rw [month, hm]
    rfl

theorem time_eq_some {p q : Bytes} {hour min sec : Nat} : time p = some ((hour, min, sec), q) ↔
    (hour < 100 ∧ min < 100 ∧ sec < 100) ∧ p = 32 :: (clock hour min sec ++ q) := by
  simp only [time, Option.bind_eq_bind, Option.bind_eq_some_iff, Prod.exists, twoDigits_eq_some, expect_eq_some, Option.some.injEq,
    Prod.mk.injEq]
  constructor
  · rintro ⟨_, rfl, h, _, ⟨hh, rfl⟩, _, rfl, m, _, ⟨hm, rfl⟩, _, rfl, s, _, ⟨hs, rfl⟩, ⟨rfl, rfl, rfl⟩, rfl⟩
    refine ⟨⟨hh, hm, hs⟩, ?_⟩
    simp only [clock, List.append_assoc, List.cons_append]
  · rintro ⟨⟨hh, hm, hs⟩, rfl⟩
    refine ⟨_, rfl, hour, _, ⟨hh, ?_⟩, _, rfl, min, _, ⟨hm, rfl⟩, _, rfl, sec, q, ⟨hs, rfl⟩, ⟨rfl, rfl, rfl⟩, rfl⟩
    simp only [clock, List.append_assoc, List.cons_append]

theorem shortYear_eq_some {p q : Bytes} {n : Nat} :
    shortYear p = some (n, q) ↔ ∃ year, year < 100 ∧ n = century year ∧ p = two year ++ q := by
  simp only [shortYear, Option.bind_eq_bind, Option.bind_eq_some_iff, Prod.exists, twoDigits_eq_some, Option.some.injEq, Prod.mk.injEq]
  constructor
  · rintro ⟨year, _, ⟨hlt, rfl⟩, rfl, rfl⟩
    exact ⟨year, hlt, rfl, rfl⟩
  · rintro ⟨year, hlt, rfl, rfl⟩
    exact ⟨year, q, ⟨hlt, rfl⟩, rfl, rfl⟩

theorem rfcRest_eq_some {day : Nat} {c : UInt8} {readYear : Bytes → Option (Nat × Bytes)} {p : Bytes} {f : Fields} :
    rfcRest day c readYear p = some f ↔ f.day = day ∧ (f.hour < 100 ∧ f.min < 100 ∧ f.sec < 100) ∧ ∃ c0 c1 c2 p1 rest,
      monthOf c0 c1 c2 = some f.month ∧ readYear p1 = some (f.year, 32 :: (clock f.hour f.min f.sec ++ rest)) ∧
        p = c0 :: c1 :: c2 :: c :: p1 := by
  simp only [rfcRest, Option.bind_eq_bind, Option.bind_eq_some_iff, Prod.exists, month_eq_some, expect_eq_some, time_eq_some,
    Option.some.injEq]
  constructor
  · rintro ⟨mon, _, ⟨c0, c1, c2, rfl, hmonth⟩, p1, rfl, year, _, hyear, hour, min, sec, rest, ⟨htime, rfl⟩, rfl⟩
    exact ⟨rfl, htime, c0, c1, c2, p1, rest, hmonth, hyear, rfl⟩
  · rintro ⟨rfl, htime, c0, c1, c2, p1, rest, hmonth, hyear, rfl⟩
    exact ⟨f.month, _, ⟨c0, c1, c2, rfl, hmonth⟩, p1, rfl, f.year, _, hyear, f.hour, f.min, f.sec, rest, ⟨htime, rfl⟩, rfl⟩

theorem headD_eq {p : Bytes} {c : UInt8} (h : p.headD 0 = c) (hne : p.tail ≠ []) : p = c :: p.tail := by
  cases p with
  | nil => exact absurd rfl hne
  | cons b p => rw [List.tail_cons, ← h, List.headD_cons]

theorem rfc_two {day : Nat} (h : day < 100) (p : Bytes) : rfc (two day ++ p) =
    if p.headD 0 = 32 then if p.length < 18 then none else rfcRest day 32 fourDigits p.tail
    else if p.headD 0 = 45 then rfcRest day 45 shortYear p.tail
    else none := by
  rw [rfc, twoDigits_eq_some.mpr ⟨h, rfl⟩]
  rfl

theorem rfc_eq_some {p : Bytes} {f : Fields} : rfc p = some f ↔ Body 44 p f := by
  constructor
  · intro h
    obtain ⟨⟨day, p1⟩, hday, h⟩ := Option.bind_eq_some_iff.mp h
    obtain ⟨hlt, rfl⟩ := twoDigits_eq_some.mp hday
    rw [rfc_two hlt] at h
    split at h
    next hc =>
        split at h
        · exact nomatch h
        obtain ⟨rfl, htime, c, c1, c2, p2, rest, hmonth, hyear, htail⟩ := rfcRest_eq_some.mp h
        obtain ⟨hylt, rfl⟩ := fourDigits_eq_some.mp hyear
        rw [headD_eq hc (by simp [htail]), htail]
        exact .rfc822 rest hlt hmonth hylt htime
    next =>
        split at h
        next hc =>
            obtain ⟨rfl, htime, c, c1, c2, p2, rest, hmonth, hyear, htail⟩ := rfcRest_eq_some.mp h
            obtain ⟨year, hylt, hcentury, rfl⟩ := shortYear_eq_some.mp hyear
            rw [headD_eq hc (by simp [htail]), htail]
            exact .rfc850 rest hlt hmonth hylt hcentury htime
        next => exact nomatch h
  · intro h
    cases h with
    | @rfc822 c c1 c2 _ rest hday hmonth hyear htime =>
        rw [rfc_two hday, List.headD_cons, if_pos rfl, if_neg (by simp [four, two, clock])]
        exact rfcRest_eq_some.mpr ⟨rfl, htime, c, c1, c2, _, rest, hmonth, fourDigits_eq_some.mpr ⟨hyear, rfl⟩, rfl⟩
    | @rfc850 year c c1 c2 _ rest hday hmonth hyear hcentury htime =>
        rw [rfc_two hday, List.headD_cons, if_neg (by decide), if_pos rfl]
        exact rfcRest_eq_some.mpr ⟨rfl, htime, c, c1, c2, _, rest, hmonth,
          shortYear_eq_some.mpr ⟨year, hyear, hcentury, rfl⟩, rfl⟩

theorem digit_ne_space : ∀ n < 10, UInt8.ofNat (48 + n) ≠ 32 := by decide +kernel

theorem isocDay_digit {a : Nat} (h : a < 10) (p : Bytes) : isocDay (UInt8.ofNat (48 + a) :: p) =
    if p.headD 0 = 32 then some (a, p) else (digit p).map fun x => (a * 10 + x.1, x.2) := by
  rw [isocDay, digit_eq_some.mpr ⟨h, rfl⟩]
  rfl

theorem isocDay_eq_some {p q : Bytes} {n : Nat} (h : q.headD 0 = 32) : isocDay p = some (n, q) ↔
    ∃ day, (n < 10 ∧ day = [UInt8.ofNat (48 + n)] ∨ n < 100 ∧ day = two n) ∧ p = day ++ q := by
  constructor
  · intro hp
    obtain ⟨⟨a, p1⟩, ha, -⟩ := Option.bind_eq_some_iff.mp hp
    obtain ⟨halt, rfl⟩ := digit_eq_some.mp ha
    rw [isocDay_digit halt] at hp
    split at hp
    · cases hp
      exact ⟨_, Or.inl ⟨halt, rfl⟩, rfl⟩
    · obtain ⟨⟨b, p2⟩, hb, heq⟩ := Option.map_eq_some_iff.mp hp
      obtain ⟨hblt, rfl⟩ := digit_eq_some.mp hb
      cases heq
      exact ⟨_, Or.inr ⟨by omega, rfl⟩, by rw [two_digits a b hblt]; rfl⟩
  · rintro ⟨day, ⟨hlt, rfl⟩ | ⟨hlt, rfl⟩, rfl⟩
    · rw [List.singleton_append, isocDay_digit hlt, if_pos h]
    · have hmod : n % 10 < 10 := Nat.mod_lt n (by decide)
      have hn : n / 10 * 10 + n % 10 = n := by omega
      rw [two, List.cons_append, List.singleton_append, isocDay_digit (by omega), List.headD_cons,
        if_neg (digit_ne_space _ hmod), digit_eq_some.mpr ⟨hmod, rfl⟩, Option.map_some, hn]

theorem day_head {n : Nat} {day : Bytes} (h : n < 10 ∧ day = [UInt8.ofNat (48 + n)] ∨ n < 100 ∧ day = two n) (q : Bytes) :
    (day ++ q).headD 0 ≠ 32 := by
  obtain ⟨hlt, rfl⟩ | ⟨hlt, rfl⟩ := h
  · exact digit_ne_space n hlt
  · exact digit_ne_space (n / 10) (by omega)

theorem isoc_eq_some {p : Bytes} {f : Fields} : isoc p = some f ↔ Body 32 p f := by
  simp only [isoc, Option.bind_eq_bind, Option.bind_eq_some_iff, Prod.exists, month_eq_some, Option.ite_none_left_eq_some,
    time_eq_some, expect_eq_some, fourDigits_eq_some, Option.some.injEq]
  constructor
  · rintro ⟨mon, p0, ⟨c, c1, c2, rfl, hmonth⟩, day, p1, hday, -, hour, min, sec, p2, ⟨htime, rfl⟩, p3, rfl, year, rest,
      ⟨hyear, rfl⟩, rfl⟩
    obtain ⟨dayText, hdayText, hp⟩ := (isocDay_eq_some rfl).mp hday
    cases p0 with
    | nil => exact absurd hp.symm (by simp)
    | cons c3 p0 =>
        rw [List.tail_cons] at hp
        split at hp
        next hpad =>
            rw [headD_eq hpad (by simp [hp]), hp]
            exact .isoc (f := ⟨day, mon, year, hour, min, sec⟩) [32] c3 rest hmonth (Or.inr rfl) hdayText hyear htime
        next =>
            rw [hp]
            exact .isoc (f := ⟨day, mon, year, hour, min, sec⟩) [] c3 rest hmonth (Or.inl rfl) hdayText hyear htime
  · intro h
    cases h with
    | @isoc day c c1 c2 _ pad c3 rest hmonth hpad hday hyear htime =>
        refine ⟨f.month, _, ⟨c, c1, c2, rfl, hmonth⟩, f.day, _, (isocDay_eq_some rfl).mpr ⟨day, hday, ?_⟩, ?_, f.hour, f.min,
          f.sec, _, ⟨htime, rfl⟩, _, rfl, f.year, rest, ⟨hyear, rfl⟩, rfl⟩
        · rw [List.tail_cons]
          obtain rfl | rfl := hpad
          · exact if_neg (day_head hday _)
          · exact if_pos rfl
        · simp [clock, two, four]

theorem Body.length_le {c : UInt8} {body : Bytes} {f : Fields} (h : Body c body f) : 18 ≤ body.length := by
  cases h with
  | rfc822 => simp [clock, two, four]
  | rfc850 => simp [clock, two]
  | isoc pad c3 rest hmonth hpad hday =>
      obtain ⟨-, rfl⟩ | ⟨-, rfl⟩ := hday
      · simp [clock, two, four]; omega
      · simp [clock, two, four]; omega

theorem Body.head_ne {c : UInt8} {body : Bytes} {f : Fields} (h : Body c body f) : body.headD 0 ≠ 32 := by
  cases h with
  | rfc822 rest hday => exact digit_ne_space _ (by omega)
  | rfc850 rest hday => exact digit_ne_space _ (by omega)
  | isoc pad c3 rest hmonth =>
      rw [List.headD_cons]
      rintro rfl
      exact nomatch hmonth

theorem Body.stop {c : UInt8} {body : Bytes} {f : Fields} (h : Body c body f) : c = 44 ∨ c = 32 := by
  cases h with
  | rfc822 => exact Or.inl rfl
  | rfc850 => exact Or.inl rfl
  | isoc => exact Or.inr rfl

theorem replicate_takeWhile (p : Bytes) : p.takeWhile (· = 32) = List.replicate (p.takeWhile (· = 32)).length 32 := by
  refine List.eq_replicate_of_mem fun b hb => ?_
  have h := List.mem_takeWhile_imp hb
  exact of_decide_eq_true h

theorem dropWhile_body {body : Bytes} (h : body.headD 0 ≠ 32) (spaces : Nat) :
    (List.replicate spaces 32 ++ body).dropWhile (· = 32) = body := by
  rw [List.dropWhile_append_of_pos]
  · cases body with
    | nil => rfl
    | cons b body => exact List.dropWhile_cons_of_neg (by simpa using h)
  · intro b hb
    exact decide_eq_true (List.eq_of_mem_replicate hb)

-- The parts that are read are those that the text spells.
theorem fields_eq_some {text : Bytes} {f : Fields} : fields text = some f ↔ Spells text f := by
  constructor
  · intro h
    rw [fields] at h
    split at h
    next => exact nomatch h
    next c p hdrop =>
        have hsplit := List.takeWhile_append_dropWhile (p := fun c : UInt8 => c ≠ 44 ∧ c ≠ 32) (l := text)
        have hspaces := List.takeWhile_append_dropWhile (p := fun c : UInt8 => c = 32) (l := p)
        have hstop := List.head_dropWhile_not (fun c : UInt8 => c ≠ 44 ∧ c ≠ 32) (l := text) (by rw [hdrop]; simp)
        have hname : ∀ b ∈ text.takeWhile (fun c => c ≠ 44 ∧ c ≠ 32), b ≠ 44 ∧ b ≠ 32 := by
          intro b hb
          have h := List.mem_takeWhile_imp hb
          exact of_decide_eq_true h
        simp only [hdrop, List.head_cons] at hstop
        rw [hdrop, ← hspaces, replicate_takeWhile] at hsplit
        refine ⟨_, c, _, _, ⟨fun hb => (hname _ hb).1 rfl, fun hb => (hname _ hb).2 rfl⟩, hsplit.symm, ?_⟩
        rw [Option.ite_none_left_eq_some] at h
        split at h
        next hc =>
            rw [hc]
            exact isoc_eq_some.mp h.2
        next hc =>
            have hcomma : c = 44 := by
              by_contra hne
              exact of_decide_eq_false hstop ⟨hne, hc⟩
            rw [hcomma]
            exact rfc_eq_some.mp h.2
  · rintro ⟨name, c, spaces, body, ⟨hcomma, hspace⟩, rfl, hbody⟩
    have hname : ∀ b ∈ name, decide (b ≠ 44 ∧ b ≠ 32) = true := by
      intro b hb
      exact decide_eq_true ⟨fun h => hcomma (h ▸ hb), fun h => hspace (h ▸ hb)⟩
    have hstop : ¬decide (c ≠ 44 ∧ c ≠ 32) = true := by
      obtain rfl | rfl := hbody.stop
      · decide
      · decide
    have hlen := hbody.length_le
    rw [fields, List.dropWhile_append_of_pos hname, List.dropWhile_cons_of_neg (p := fun c => decide (c ≠ 44 ∧ c ≠ 32)) hstop]
    dsimp only
    rw [dropWhile_body hbody.head_ne, if_neg (by omega)]
    obtain rfl | rfl := hbody.stop
    · rw [if_neg (by decide)]
      exact rfc_eq_some.mpr hbody
    · rw [if_pos rfl]
      exact isoc_eq_some.mpr hbody

-- The date is one of the calendar, and the time of day is one.
structure Fields.Exists (f : Fields) : Prop where
  valid : Valid f.year (f.month + 1) f.day
  hour_lt : f.hour < 24
  min_lt : f.min < 60
  sec_lt : f.sec < 60

theorem monthOf_lt {c c1 c2 : UInt8} {m : Nat} (h : monthOf c c1 c2 = some m) : m < 12 := by
  rw [monthOf] at h
  split at h
  · cases h
    split
    · decide
    · split <;> decide
  · cases h
    decide
  · cases h
    split <;> decide
  · cases h
    split <;> decide
  · cases h
    decide
  · cases h
    decide
  · cases h
    decide
  · cases h
    decide
  · exact nomatch h

theorem century_lt {year : Nat} (h : year < 100) : century year < 10000 := by
  rw [century]
  split
  · omega
  · omega

theorem Spells.bounds {text : Bytes} {f : Fields} (h : Spells text f) : f.month < 12 ∧ f.year < 10000 := by
  obtain ⟨_, _, _, _, _, _, hbody⟩ := h
  cases hbody with
  | rfc822 rest hday hmonth hyear => exact ⟨monthOf_lt hmonth, hyear⟩
  | rfc850 rest hday hmonth hyear hcentury => exact ⟨monthOf_lt hmonth, hcentury ▸ century_lt hyear⟩
  | isoc pad c3 rest hmonth hpad hday hyear => exact ⟨monthOf_lt hmonth, hyear⟩

theorem Spells.unique {text : Bytes} {f g : Fields} (hf : Spells text f) (hg : Spells text g) : f = g :=
  Option.some.inj ((fields_eq_some.mpr hf).symm.trans (fields_eq_some.mpr hg))

theorem leap_iff (year : Nat) : ¬(year &&& 3 ≠ 0 ∨ (year % 100 = 0 ∧ year % 400 ≠ 0)) ↔ IsLeap year := by
  have hand : year &&& 3 = year % 4 := Nat.and_two_pow_sub_one_eq_mod year 2
  rw [hand, IsLeap]
  omega

theorem daysIn_eq {month : Nat} (year : Nat) (h : month < 12) (hfeb : month ≠ 1) :
    daysIn.getD month 0 = monthDays year (month + 1) := by
  rw [monthDays_eq (by omega)]
  have hall : ∀ m < 12, m ≠ 1 → daysIn.getD m 0 = monthDays 1 (m + 1) := by decide
  exact hall month h hfeb

-- A day is compared with the length of its month only.
theorem dayAllowed_iff {f : Fields} (h : f.month < 12) : dayAllowed f ↔ f.day ≤ monthDays f.year (f.month + 1) := by
  rw [dayAllowed]
  by_cases hfeb : f.month = 1
  · have hlen : monthDays f.year (f.month + 1) = if IsLeap f.year then 29 else 28 := by
      rw [hfeb]
      exact if_pos rfl
    have hshort : daysIn.getD f.month 0 = 28 := by
      rw [hfeb]
      rfl
    rw [hlen, hshort]
    by_cases hday : f.day = 29
    · rw [if_pos ⟨hday, hfeb⟩, leap_iff]
      split
      next hleap => exact ⟨fun _ => by omega, fun _ => hleap⟩
      next hleap => exact ⟨fun h => absurd h hleap, fun _ => by omega⟩
    · rw [if_neg fun h => hday h.1]
      split <;> omega
  · rw [if_neg fun h => hfeb h.2, daysIn_eq f.year h hfeb]

theorem timeOf_eq {f : Fields} (hmonth : f.month < 12) (hyear : f.year < 10000) (hday : f.day ≤ 31) (hhour : f.hour < 24)
    (hmin : f.min < 60) (hsec : f.sec < 60) (hpos : 0 < f.year ∨ 1 < f.month) :
    timeOf f = ((marchDays (marchYear f.year (f.month + 1)) + monthStart (marchMonth (f.month + 1)) + f.day : Nat) - 719469) *
      86400 + f.hour * 3600 + f.min * 60 + f.sec := by
  have hyears : (if f.month ≤ 1 then toSize (f.year - 1) else f.year) = marchYear f.year (f.month + 1) := by
    rw [marchYear]
    by_cases hle : f.month ≤ 1
    · rw [if_pos hle, if_pos (by omega), toSize]
      omega
    · rw [if_neg hle, if_neg (by omega)]
  have hmonths : (if f.month ≤ 1 then f.month + 11 else f.month - 1) = marchMonth (f.month + 1) := by
    rw [marchMonth]
    by_cases hle : f.month ≤ 1
    · rw [if_pos hle, if_pos (by omega)]
    · rw [if_neg hle, if_neg (by omega)]
      omega
  have hmlow : 1 ≤ marchMonth (f.month + 1) := by
    rw [← hmonths]
    split <;> omega
  have hmhigh : marchMonth (f.month + 1) ≤ 12 := by
    rw [← hmonths]
    split <;> omega
  have hylt : marchYear f.year (f.month + 1) < 10000 := by
    rw [marchYear]
    split <;> omega
  rw [timeOf, hyears, hmonths, marchDays, monthStart]
  generalize marchYear f.year (f.month + 1) = year at hylt ⊢
  generalize marchMonth (f.month + 1) = month at hmlow hmhigh ⊢
  rw [toInt64_of_range]
  · omega
  · omega
  · omega

-- January 0, 1970 at 23:59:59, whose number is that of NGX_ERROR
def zeroth : Fields := { day := 0, month := 0, year := 1970, hour := 23, min := 59, sec := 59 }

theorem timeOf_zeroth : timeOf zeroth = -1 := by decide

-- A day before the first of a month has a number that is not the one of NGX_ERROR, but for one.
theorem timeOf_ne {f : Fields} (hmonth : f.month < 12) (hyear : f.year < 10000) (hzero : f.day = 0) (hhour : f.hour < 24)
    (hmin : f.min < 60) (hsec : f.sec < 60) (hne : f ≠ zeroth) : timeOf f ≠ -1 := by
  by_cases hpos : 0 < f.year ∨ 1 < f.month
  · rw [timeOf_eq hmonth hyear (by omega) hhour hmin hsec hpos, hzero]
    intro h
    have hdays : marchDays (marchYear f.year (f.month + 1)) + monthStart (marchMonth (f.month + 1)) = 719468 := by omega
    obtain ⟨hhigh, hlow⟩ := marchDays_bounds (marchYear f.year (f.month + 1))
    have hmlow : 1 ≤ marchMonth (f.month + 1) ∧ marchMonth (f.month + 1) ≤ 12 := by
      rw [marchMonth]
      split <;> omega
    have hstart : monthStart (marchMonth (f.month + 1)) ≤ 337 := by
      rw [monthStart]
      omega
    have h1969 : marchYear f.year (f.month + 1) = 1969 := by omega
    have hdays1969 : marchDays 1969 = 719162 := rfl
    rw [h1969, hdays1969, monthStart] at hdays
    have h11 : marchMonth (f.month + 1) = 11 := by omega
    rw [marchMonth] at h11
    rw [marchYear] at h1969
    split at h11
    next hjan =>
        rw [if_pos hjan] at h1969
        apply hne
        obtain ⟨day, month, year, hour, min, sec⟩ := f
        rw [zeroth, Fields.mk.injEq]
        dsimp only at *
        omega
    next => omega
  · have hyear0 : f.year = 0 := by omega
    have hle : f.month ≤ 1 := by omega
    have hwrap : toSize ((0 : Nat) - 1) = 2 ^ 64 - 1 := rfl
    have hsum : ∀ a : Int, a + f.hour * 3600 + f.min * 60 + f.sec = a + (f.hour * 3600 + f.min * 60 + f.sec : Nat) := by omega
    have hday : f.hour * 3600 + f.min * 60 + f.sec < 86400 := by omega
    rw [timeOf, if_pos hle, if_pos hle, hyear0, hwrap, hzero, hsum, toInt64, Int.bmod_def]
    generalize f.hour * 3600 + f.min * 60 + f.sec = second at hday ⊢
    obtain hm | hm : f.month = 0 ∨ f.month = 1 := by omega
    · rw [hm]
      split <;> omega
    · rw [hm]
      split <;> omega

-- The fields of a date, the names of its days, and its two other spellings
def ofTm (tm : Tm) : Fields :=
  { day := tm.mday, month := tm.mon - 1, year := tm.year, hour := tm.hour, min := tm.min, sec := tm.sec }

def weekdays : List Bytes :=
  ["Sunday", "Monday", "Tuesday", "Wednesday", "Thursday", "Friday", "Saturday"].map ngxString

-- Sunday, 06-Nov-94 08:49:37 GMT
def rfc850Text (tm : Tm) : Bytes :=
  weekdays.getD tm.wday [] ++ 44 :: 32 :: (two tm.mday ++ 45 :: (monthName tm.mon ++ 45 :: (two (tm.year % 100) ++ 32 ::
    (clock tm.hour tm.min tm.sec ++ ngxString " GMT"))))

-- Sun Nov  6 08:49:37 1994
def asctimeText (tm : Tm) : Bytes :=
  weekName tm.wday ++ 32 :: (monthName tm.mon ++ 32 ::
    ((if tm.mday < 10 then [32, UInt8.ofNat (48 + tm.mday)] else two tm.mday) ++ 32 ::
      (clock tm.hour tm.min tm.sec ++ 32 :: four tm.year)))

theorem week_stop : ∀ wday < 7, (44 ∉ weekName wday ∧ 32 ∉ weekName wday) ∧
    44 ∉ weekdays.getD wday [] ∧ 32 ∉ weekdays.getD wday [] := by decide

theorem month_letters {mon : Nat} (hpos : 1 ≤ mon) (hle : mon ≤ 12) :
    ∃ c c1 c2, monthName mon = [c, c1, c2] ∧ monthOf c c1 c2 = some (mon - 1) := by
  have hall : ∀ k < 12, monthOf ((monthName (k + 1)).getD 0 0) ((monthName (k + 1)).getD 1 0) ((monthName (k + 1)).getD 2 0) =
      some k := by decide +kernel
  have hmonth := hall (mon - 1) (by omega)
  rw [Nat.sub_add_cancel hpos] at hmonth
  obtain ⟨c, c1, c2, hname⟩ := List.length_eq_three.mp (month_name mon hpos hle).2
  rw [hname] at hmonth
  exact ⟨c, c1, c2, hname, hmonth⟩

section

variable {t : Nat} {tm : Tm}

theorem wday_lt (h : IsDate t tm) : tm.wday < 7 := by
  rw [h.wday_eq]
  exact Nat.mod_lt _ (by decide)

theorem mday_le (h : IsDate t tm) : tm.mday ≤ 31 := Nat.le_trans h.valid.day_le (monthDays_le _ _)

theorem time_lt (h : IsDate t tm) : tm.hour < 100 ∧ tm.min < 100 ∧ tm.sec < 100 := by
  have hhour := h.hour_lt
  have hmin := h.min_lt
  have hsec := h.sec_lt
  omega

theorem httpText_spells (h : IsDate t tm) (hyear : tm.year < 10000) : Spells (httpText tm) (ofTm tm) := by
  obtain ⟨c, c1, c2, hname, hmonth⟩ := month_letters h.valid.month_pos h.valid.month_le
  have hmday := mday_le h
  have hbody := Body.rfc822 (f := ofTm tm) (ngxString " GMT") (by dsimp only [ofTm]; omega) hmonth hyear (time_lt h)
  refine ⟨_, 44, 1, _, (week_stop _ (wday_lt h)).1, ?_, hbody⟩
  rw [httpText, hname]
  rfl

theorem rfc850Text_spells (h : IsDate t tm) (hyear : tm.year < 2070) : Spells (rfc850Text tm) (ofTm tm) := by
  obtain ⟨c, c1, c2, hname, hmonth⟩ := month_letters h.valid.month_pos h.valid.month_le
  have hmday := mday_le h
  have hge := h.year_ge
  have hcentury : tm.year = century (tm.year % 100) := by
    rw [century]
    split <;> omega
  have hbody := Body.rfc850 (f := ofTm tm) (ngxString " GMT") (by dsimp only [ofTm]; omega) hmonth
    (Nat.mod_lt _ (by decide)) hcentury (time_lt h)
  refine ⟨_, 44, 1, _, (week_stop _ (wday_lt h)).2, ?_, hbody⟩
  rw [rfc850Text, hname]
  rfl

theorem asctimeText_spells (h : IsDate t tm) (hyear : tm.year < 10000) : Spells (asctimeText tm) (ofTm tm) := by
  obtain ⟨c, c1, c2, hname, hmonth⟩ := month_letters h.valid.month_pos h.valid.month_le
  have hmday := mday_le h
  rw [asctimeText, hname]
  by_cases hshort : tm.mday < 10
  · have hbody := Body.isoc (f := ofTm tm) [32] 32 [] hmonth (Or.inr rfl) (Or.inl ⟨hshort, rfl⟩)
      hyear (time_lt h)
    rw [List.append_nil] at hbody
    rw [if_pos hshort]
    exact ⟨_, 32, 0, _, (week_stop _ (wday_lt h)).1, rfl, hbody⟩
  · have hbody := Body.isoc (f := ofTm tm) [] 32 [] hmonth (Or.inl rfl)
      (Or.inr ⟨by dsimp only [ofTm]; omega, rfl⟩) hyear (time_lt h)
    rw [List.append_nil] at hbody
    rw [if_neg hshort]
    exact ⟨_, 32, 0, _, (week_stop _ (wday_lt h)).1, rfl, hbody⟩

-- What is read of a spelling of a date is its time.
theorem parseTime_isDate (h : IsDate t tm) {text : Bytes} (hspells : Spells text (ofTm tm)) : parseTime text = t := by
  obtain ⟨hmonth, hyear⟩ := hspells.bounds
  have hmonth1 : (ofTm tm).month + 1 = tm.mon := Nat.sub_add_cancel h.valid.month_pos
  have hallowed : dayAllowed (ofTm tm) := by
    rw [dayAllowed_iff hmonth, hmonth1]
    exact h.valid.day_le
  have hhour := h.hour_lt
  have hmin := h.min_lt
  have hsec := h.sec_lt
  have hge := h.year_ge
  have hnumber := march_number h.valid hge
  have htime := h.time_eq
  have hvalue := timeOf_eq hmonth hyear (mday_le h) hhour hmin hsec (Or.inl (Nat.lt_of_lt_of_le (by decide) hge))
  rw [hmonth1] at hvalue
  rw [parseTime, fields_eq_some.mpr hspells]
  dsimp only
  rw [if_neg (by dsimp only [ofTm]; omega), if_pos hallowed, hvalue]
  dsimp only [ofTm]
  omega

end

-- Every time of the years to 9999 is read from each of its spellings, the one of ngx_http_time too. What is accepted is a date
-- and a time unless its day is 0, which nothing refuses.
theorem dates_exact_iff (text : Bytes) :
    (∀ t ≤ lastTime, IsDate t (gmtime t) ∧
      (∀ buf, buf + 29 < 2 ^ 64 → ∃ text, httpTime buf t = some text ∧ parseTime text = t) ∧
      ((gmtime t).year < 2070 → parseTime (rfc850Text (gmtime t)) = t) ∧ parseTime (asctimeText (gmtime t)) = t) ∧
    ((parseTime text ≠ -1 → ∃ f, Spells text f ∧ f.Exists) ↔
      ∀ f, Spells text f → f.day ≠ 0 ∨ 23 < f.hour ∨ 59 < f.min ∨ 59 < f.sec ∨ f = zeroth) := by
  refine ⟨fun t ht => ?_, fun hexact f hspells => ?_, fun hwhen haccepted => ?_⟩
  · have hdate := gmtime_isDate t
    have hyear := gmtime_year_lt ht
    refine ⟨hdate, fun buf hbuf => ⟨_, httpTime_eq ht hbuf, parseTime_isDate hdate (httpText_spells hdate hyear)⟩,
      fun h2070 => parseTime_isDate hdate (rfc850Text_spells hdate h2070),
      parseTime_isDate hdate (asctimeText_spells hdate hyear)⟩
  · by_contra hnot
    obtain ⟨hmonth, hyear⟩ := hspells.bounds
    have hzero : f.day = 0 := by omega
    have hne : f ≠ zeroth := fun h => hnot (Or.inr (Or.inr (Or.inr (Or.inr h))))
    have hallowed : dayAllowed f := by
      rw [dayAllowed_iff hmonth, hzero]
      exact Nat.zero_le _
    have hvalue : parseTime text = timeOf f := by
      rw [parseTime, fields_eq_some.mpr hspells]
      dsimp only
      rw [if_neg (by omega), if_pos hallowed]
    have htime := timeOf_ne hmonth hyear hzero (by omega) (by omega) (by omega) hne
    obtain ⟨g, hg, hexists⟩ := hexact (by rw [hvalue]; exact htime)
    have hday := hexists.valid.day_pos
    rw [← hspells.unique hg, hzero] at hday
    omega
  · rw [parseTime] at haccepted
    split at haccepted
    next => exact absurd rfl haccepted
    next f hf =>
        have hspells := fields_eq_some.mp hf
        obtain ⟨hmonth, hyear⟩ := hspells.bounds
        split at haccepted
        · exact absurd rfl haccepted
        next htime =>
            split at haccepted
            next hallowed =>
                have hday : 1 ≤ f.day := by
                  obtain h | h | h | h | rfl := hwhen f hspells
                  · omega
                  · omega
                  · omega
                  · omega
                  · exact absurd timeOf_zeroth haccepted
                exact ⟨f, hspells, ⟨by omega, by omega, hday, (dayAllowed_iff hmonth).mp hallowed⟩, by omega, by omega, by omega⟩
            next => exact absurd rfl haccepted

-- The day 00 is accepted.
theorem day_unchecked : parseTime (ngxString "Sun, 00 Nov 2002 23:50:13 GMT") ≠ -1 ∧
    ¬∃ f, Spells (ngxString "Sun, 00 Nov 2002 23:50:13 GMT") f ∧ f.Exists := by
  refine ⟨by decide +kernel, ?_⟩
  rintro ⟨f, hspells, hexists⟩
  have hfields : fields (ngxString "Sun, 00 Nov 2002 23:50:13 GMT") =
      some { day := 0, month := 10, year := 2002, hour := 23, min := 50, sec := 13 } := by decide +kernel
  have hf := Option.some.inj (hfields.symm.trans (fields_eq_some.mpr hspells))
  have hday := hexists.valid.day_pos
  rw [← hf] at hday
  exact absurd hday (by decide)

end Nginx.HttpParseTime
