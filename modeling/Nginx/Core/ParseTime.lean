import Nginx.Core.Number

namespace Nginx.ParseTime

open Number

inductive Step where
  | start
  | year
  | month
  | week
  | day
  | hour
  | min
  | sec
  | msec
  | last
deriving DecidableEq

def Step.index : Step → Nat
  | .start => 0
  | .year => 1
  | .month => 2
  | .week => 3
  | .day => 4
  | .hour => 5
  | .min => 6
  | .sec => 7
  | .msec => 8
  | .last => 9

-- NGX_MAX_INT32_VALUE
def maxInt32 : Nat := 0x7fffffff

-- The variables of ngx_parse_time; scale has its first value again at the head of each iteration.
structure Time where
  value : Int := 0
  total : Int := 0
  step : Step
  valid : Bool := false

-- if (step >= u) { return NGX_ERROR; }, the new step, scale and what is left of the text
def unitCase (step u : Step) (scale : Nat) (p : Bytes) : Option (Step × Nat × Bytes) :=
  if u.index ≤ step.index then none else some (u, scale, p)

-- switch (*p++), where none is NGX_ERROR. In each case max is NGX_MAX_INT32_VALUE / scale. The 's' that is looked for
-- behind 'm' may stand behind the text.
def timeUnit (isSec : Bool) (behind : UInt8) (step : Step) (c : UInt8) (p : Bytes) : Option (Step × Nat × Bytes) :=
  match Char.ofUInt8 c with
  | 'y' => if Step.start.index < step.index then none else some (.year, 60 * 60 * 24 * 365, p)
  | 'M' => unitCase step .month (60 * 60 * 24 * 30) p
  | 'w' => unitCase step .week (60 * 60 * 24 * 7) p
  | 'd' => unitCase step .day (60 * 60 * 24) p
  | 'h' => unitCase step .hour (60 * 60) p
  | 'm' =>
      if p.head?.getD behind = 115 then if isSec then none else unitCase step .msec 1 p.tail
      else unitCase step .min 60 p
  | 's' => unitCase step .sec 1 p
  | ' ' => if Step.sec.index ≤ step.index then none else some (.last, 1, p)
  | _ => none

-- What is added behind the switch
def Time.add (isSec : Bool) (s : Time) (step : Step) (scale : Nat) : Option Time :=
  let max := if step ≠ .msec ∧ !isSec then maxInt32 / scale / 1000 else maxInt32 / scale
  let scale := if step ≠ .msec ∧ !isSec then scale * 1000 else scale
  if max < toSize s.value then none
  else
    let total := toInt64 (s.total + s.value * scale)
    if maxInt32 < toSize total then none else some { s with value := 0, total, step }

-- while (p < last). Each iteration takes a byte or more, so the length of the text bounds the iterations.
def timeLoop (isSec : Bool) (behind : UInt8) : Nat → Bytes → Time → Option Time
  | fuel + 1, c :: p, s =>
      match decimalDigit c with
      | some d => timeLoop isSec behind fuel p { s with value := toInt64 (s.value * 10 + d), valid := true }
      | none =>
          match timeUnit isSec behind s.step c p with
          | none => none
          | some (step, scale, p) =>
              match s.add isSec step scale with
              | none => none
              | some s => timeLoop isSec behind fuel (p.dropWhile (· = 32)) s
  | _, _, s => some s

-- step = is_sec ? st_start : st_month and scale = is_sec ? 1 : 1000
def firstStep (isSec : Bool) : Step := if isSec then .start else .month

def firstScale (isSec : Bool) : Nat := if isSec then 1 else 1000

-- ngx_parse_time, where -1 is NGX_ERROR
def parseTime (isSec : Bool) (behind : UInt8) (line : Bytes) : Int :=
  match timeLoop isSec behind line.length line { step := firstStep isSec } with
  | none => -1
  | some s => if s.valid then toInt64 (s.total + s.value * firstScale isSec) else -1

-- The units as they are written, and how long they are
def Step.name : Step → Bytes
  | .year => ngxString "y"
  | .month => ngxString "M"
  | .week => ngxString "w"
  | .day => ngxString "d"
  | .hour => ngxString "h"
  | .min => ngxString "m"
  | .sec => ngxString "s"
  | .msec => ngxString "ms"
  | .start => []
  | .last => []

def Step.scale : Step → Nat
  | .year => 60 * 60 * 24 * 365
  | .month => 60 * 60 * 24 * 30
  | .week => 60 * 60 * 24 * 7
  | .day => 60 * 60 * 24
  | .hour => 60 * 60
  | .min => 60
  | _ => 1

def Step.unit (isSec : Bool) (u : Step) : Nat := if u ≠ .msec ∧ !isSec then u.scale * 1000 else u.scale

def IsUnit (isSec : Bool) (u : Step) : Prop := u ≠ .start ∧ u ≠ .last ∧ (u = .msec → isSec = false)

-- Numbers with units behind a step, each unit behind the one before it, and a number without a unit at the end; a text
-- without this number has 0 for it.
inductive Items (isSec : Bool) : Step → Bytes → List (Nat × Step) → Nat → Prop where
  | done (step : Step) : Items isSec step [] [] 0
  | number {step : Step} {s : Bytes} {v : Nat} (hs : numeral 10 s = some v) : Items isSec step s [] v
  | item {step u : Step} {s text : Bytes} {v n final : Nat} {items : List (Nat × Step)} (hs : numeral 10 s = some v)
      (hu : IsUnit isSec u) (hlt : step.index < u.index) (hn : text = [] → n = 0) (hrest : Items isSec u text items final) :
      Items isSec step (s ++ (u.name ++ (List.replicate n 32 ++ text))) ((v, u) :: items) final

def sum (isSec : Bool) (items : List (Nat × Step)) : Nat := (items.map fun i => i.1 * i.2.unit isSec).sum

theorem toSize_toInt64 {v : Nat} (h : v < 2 ^ 64) : toSize (toInt64 v) = v := by
  have hsplit := toInt64_natCast v
  unfold toSize
  rw [hsplit]
  split_ifs <;> omega

theorem Step.scale_pos (u : Step) : 0 < u.scale := by cases u <;> decide

theorem Step.unit_pos (isSec : Bool) (u : Step) : 0 < u.unit isSec := by
  have hpos := u.scale_pos
  rw [Step.unit]
  split <;> omega

theorem Time.add_eq {isSec : Bool} {u step : Step} {v total : Nat} {valid : Bool} (hv : v < 2 ^ 64) (htotal : total ≤ maxInt32) :
    Time.add isSec ⟨toInt64 v, total, step, valid⟩ u u.scale =
      if total + v * u.unit isSec ≤ maxInt32 then some ⟨0, (total + v * u.unit isSec : Nat), u, valid⟩ else none := by
  have hmax : (if u ≠ .msec ∧ !isSec then maxInt32 / u.scale / 1000 else maxInt32 / u.scale) = maxInt32 / u.unit isSec := by
    rw [Step.unit]
    split
    · rw [Nat.div_div_eq_div_mul]
    · rfl
  have hunit := u.unit_pos isSec
  have hadd : Time.add isSec ⟨toInt64 v, total, step, valid⟩ u u.scale =
      if maxInt32 / u.unit isSec < toSize (toInt64 v) then none
      else if maxInt32 < toSize (toInt64 (total + toInt64 v * (u.unit isSec : Nat))) then none
      else some ⟨0, toInt64 (total + toInt64 v * (u.unit isSec : Nat)), u, valid⟩ := by
    simp only [Time.add, hmax]
    rfl
  rw [hadd, toSize_toInt64 hv]
  by_cases hbig : maxInt32 / u.unit isSec < v
  · have hmul : maxInt32 < v * u.unit isSec := (Nat.div_lt_iff_lt_mul hunit).mp hbig
    rw [if_pos hbig, if_neg (by omega)]
  · have hmul : v * u.unit isSec ≤ maxInt32 := (Nat.le_div_iff_mul_le hunit).mp (by omega)
    have hvle : v ≤ v * u.unit isSec := Nat.le_mul_of_pos_right v hunit
    have hmaxlt : maxInt32 < 2 ^ 31 := by decide
    have hsmall : toInt64 v = v := toInt64_of_range v (by omega) (by omega)
    have hsum : toInt64 ((total : Int) + v * (u.unit isSec : Nat)) = (total + v * u.unit isSec : Nat) := by
      have hcast : (total : Int) + v * (u.unit isSec : Nat) = (total + v * u.unit isSec : Nat) := by push_cast; rfl
      rw [hcast]
      exact toInt64_of_range _ (by omega) (by omega)
    have hsize : toSize ((total + v * u.unit isSec : Nat) : Int) = total + v * u.unit isSec := by
      have hcast := toSize_of_nonneg ((total + v * u.unit isSec : Nat) : Int) (by omega) (by omega)
      omega
    rw [if_neg hbig, hsmall, hsum, hsize]
    by_cases hfits : total + v * u.unit isSec ≤ maxInt32
    · rw [if_neg (by omega), if_pos hfits]
    · rw [if_pos (by omega), if_neg hfits]

theorem timeLoop_digits {isSec : Bool} {behind : UInt8} {s : Bytes} (p : Bytes) {n v fuel : Nat} {total : Int} {step : Step}
    {valid : Bool} (h : numeralFrom 10 n s = some v) (hfuel : s.length ≤ fuel) :
    timeLoop isSec behind fuel (s ++ p) ⟨toInt64 n, total, step, valid⟩ =
      timeLoop isSec behind (fuel - s.length) p ⟨toInt64 v, total, step, valid || s ≠ []⟩ := by
  induction s generalizing n fuel valid with
  | nil =>
      obtain rfl : n = v := by simpa [numeralFrom] using h
      simp
  | cons c s ih =>
      rw [numeralFrom, Option.bind_eq_some_iff] at h
      obtain ⟨d, hd, hv⟩ := h
      rw [List.length_cons] at hfuel
      obtain ⟨fuel, rfl⟩ := Nat.exists_eq_add_of_le' (Nat.le_trans (Nat.le_add_left 1 _) hfuel)
      have hstep : toInt64 (toInt64 n * 10 + d) = toInt64 (n * 10 + d : Nat) := by
        push_cast
        exact toInt64_mul_add n 10 d
      have hfuel' : fuel + 1 - (s.length + 1) = fuel - s.length := by omega
      rw [List.cons_append, timeLoop, decimalDigit_eq, hd]
      dsimp only
      rw [hstep, ih hv (by omega), List.length_cons, hfuel']
      simp

theorem unitCase_later {step u : Step} (hlt : step.index < u.index) (scale : Nat) (p : Bytes) :
    unitCase step u scale p = some (u, scale, p) := if_neg (Nat.not_le.mpr hlt)

theorem timeUnit_name {isSec : Bool} {behind : UInt8} {step u : Step} {p : Bytes} (hu : IsUnit isSec u)
    (hlt : step.index < u.index) (hnext : u = .min → p.head?.getD behind ≠ 115) :
    ∃ c q, u.name ++ p = c :: q ∧ decimalDigit c = none ∧ timeUnit isSec behind step c q = some (u, u.scale, p) := by
  obtain ⟨hstart, hlast, hmsec⟩ := hu
  cases u with
  | start => exact absurd rfl hstart
  | last => exact absurd rfl hlast
  | year => exact ⟨121, p, rfl, by decide, if_neg (Nat.not_lt.mpr (Nat.le_of_lt_succ hlt))⟩
  | month => exact ⟨77, p, rfl, by decide, unitCase_later hlt _ p⟩
  | week => exact ⟨119, p, rfl, by decide +kernel, unitCase_later hlt _ p⟩
  | day => exact ⟨100, p, rfl, by decide, unitCase_later hlt _ p⟩
  | hour => exact ⟨104, p, rfl, by decide, unitCase_later hlt _ p⟩
  | min => exact ⟨109, p, rfl, by decide, (if_neg (hnext rfl)).trans (unitCase_later hlt _ p)⟩
  | sec => exact ⟨115, p, rfl, by decide, unitCase_later hlt _ p⟩
  | msec =>
      refine ⟨109, 115 :: p, rfl, by decide, ?_⟩
      have hsecond : ((115 :: p : Bytes).head?.getD behind) = 115 := rfl
      have hread : timeUnit isSec behind step 109 (115 :: p) =
          if (115 :: p : Bytes).head?.getD behind = 115 then if isSec then none else unitCase step .msec 1 p
          else unitCase step .min 60 (115 :: p) := rfl
      have hno : ¬isSec = true := by
        rw [hmsec rfl]
        decide
      rw [hread, if_pos hsecond, if_neg hno]
      exact unitCase_later hlt _ p

theorem IsUnit.name_pos {isSec : Bool} {u : Step} (h : IsUnit isSec u) : 0 < u.name.length := by
  obtain ⟨hstart, hlast, -⟩ := h
  revert hstart hlast
  cases u <;> decide

theorem numeral_cons {s : Bytes} {v : Nat} (h : numeral 10 s = some v) :
    numeralFrom 10 0 s = some v ∧ ∃ c t, s = c :: t ∧ (decimalDigit c).isSome := by
  rw [numeral] at h
  split at h
  · cases h
  · refine ⟨h, ?_⟩
    cases s with
    | nil => contradiction
    | cons c t =>
        rw [numeralFrom, Option.bind_eq_some_iff] at h
        obtain ⟨d, hd, -⟩ := h
        exact ⟨c, t, rfl, by rw [decimalDigit_eq, hd]; rfl⟩

-- What follows a unit and its spaces is empty or a digit.
theorem Items.head {isSec : Bool} {step : Step} {text : Bytes} {items : List (Nat × Step)} {final : Nat}
    (h : Items isSec step text items final) : text = [] ∨ ∃ c t, text = c :: t ∧ (decimalDigit c).isSome := by
  cases h with
  | done => exact Or.inl rfl
  | number hs =>
      obtain ⟨-, c, t, rfl, hc⟩ := numeral_cons hs
      exact Or.inr ⟨c, t, rfl, hc⟩
  | item hs =>
      obtain ⟨-, c, t, rfl, hc⟩ := numeral_cons hs
      exact Or.inr ⟨c, _, rfl, hc⟩

theorem dropWhile_spaces {n : Nat} {text : Bytes} (h : text = [] ∨ ∃ c t, text = c :: t ∧ (decimalDigit c).isSome) :
    (List.replicate n 32 ++ text).dropWhile (· = 32) = text := by
  have hspace : decimalDigit 32 = none := by decide
  induction n with
  | zero =>
      obtain rfl | ⟨c, t, rfl, hc⟩ := h
      · rfl
      · have hne : c ≠ 32 := by
          rintro rfl
          rw [hspace] at hc
          cases hc
        rw [List.replicate_zero, List.nil_append, List.dropWhile_cons_of_neg (by simpa using hne)]
  | succ n ih => rw [List.replicate_succ, List.cons_append, List.dropWhile_cons_of_pos (by decide), ih]

-- A minute is followed by no 's'.
theorem no_second {behind : UInt8} {n : Nat} {text : Bytes} (hhead : text = [] ∨ ∃ c t, text = c :: t ∧ (decimalDigit c).isSome)
    (hn : text = [] → n = 0) (hbehind : text = [] → behind ≠ 115) : (List.replicate n 32 ++ text).head?.getD behind ≠ 115 := by
  have hsecond : decimalDigit 115 = none := by decide
  cases n with
  | zero =>
      obtain rfl | ⟨c, t, rfl, hc⟩ := hhead
      · exact hbehind rfl
      · rw [List.replicate_zero, List.nil_append, List.head?_cons, Option.getD_some]
        rintro rfl
        rw [hsecond] at hc
        cases hc
  | succ n =>
      rw [List.replicate_succ, List.cons_append, List.head?_cons, Option.getD_some]
      decide

-- The byte behind a text matters when it ends with 'm'.
def EndsWell (behind : UInt8) (text : Bytes) : Prop := text.getLast? = some 109 → behind ≠ 115

theorem EndsWell.of_append {behind : UInt8} {s t : Bytes} (h : EndsWell behind (s ++ t)) (ht : t ≠ []) : EndsWell behind t := by
  intro hlast
  exact h (by rw [List.getLast?_append_of_ne_nil _ ht, hlast])

theorem timeLoop_nil (isSec : Bool) (behind : UInt8) (fuel : Nat) (s : Time) : timeLoop isSec behind fuel [] s = some s := by
  cases fuel <;> rfl

theorem toInt64_zero : toInt64 (0 : Nat) = 0 := toInt64_of_range (0 : Nat) (by omega) (by omega)

theorem timeLoop_number {isSec : Bool} {behind : UInt8} {step : Step} {s : Bytes} {v fuel : Nat} {total : Int} (p : Bytes) (valid : Bool)
    (hs : numeral 10 s = some v) (hfuel : s.length ≤ fuel) :
    timeLoop isSec behind fuel (s ++ p) ⟨0, total, step, valid⟩ =
      timeLoop isSec behind (fuel - s.length) p ⟨toInt64 v, total, step, true⟩ := by
  obtain ⟨hv, c, t, rfl, -⟩ := numeral_cons hs
  have hdigits : timeLoop isSec behind fuel (c :: t ++ p) ⟨toInt64 (0 : Nat), total, step, valid⟩ = _ :=
    timeLoop_digits p hv hfuel
  rw [toInt64_zero] at hdigits
  rw [hdigits]
  simp

theorem timeLoop_unit {isSec : Bool} {behind c : UInt8} {fuel scale : Nat} {p q : Bytes} {s : Time} {u : Step}
    (hc : decimalDigit c = none) (hunit : timeUnit isSec behind s.step c q = some (u, scale, p)) :
    timeLoop isSec behind (fuel + 1) (c :: q) s =
      (s.add isSec u scale).bind (timeLoop isSec behind fuel (p.dropWhile (· = 32))) := by
  rw [timeLoop, hc]
  dsimp only
  rw [hunit]
  dsimp only
  cases s.add isSec u scale <;> rfl

-- A number and its unit
theorem timeLoop_item {isSec : Bool} {behind : UInt8} {step u : Step} {s text : Bytes} {v n fuel total : Nat} (valid : Bool)
    (hs : numeral 10 s = some v) (hv : v < 2 ^ 64) (hu : IsUnit isSec u) (hlt : step.index < u.index)
    (hhead : text = [] ∨ ∃ c t, text = c :: t ∧ (decimalDigit c).isSome)
    (hnext : u = .min → (List.replicate n 32 ++ text).head?.getD behind ≠ 115)
    (hfuel : (s ++ (u.name ++ (List.replicate n 32 ++ text))).length ≤ fuel) (htotal : total ≤ maxInt32) :
    ∃ fuel', text.length ≤ fuel' ∧
      timeLoop isSec behind fuel (s ++ (u.name ++ (List.replicate n 32 ++ text))) ⟨0, total, step, valid⟩ =
        if total + v * u.unit isSec ≤ maxInt32 then
          timeLoop isSec behind fuel' text ⟨0, (total + v * u.unit isSec : Nat), u, true⟩
        else none := by
  have hname := hu.name_pos
  rw [List.length_append, List.length_append, List.length_append, List.length_replicate] at hfuel
  obtain ⟨b, q, hq, hb, hunit⟩ := timeUnit_name hu hlt hnext
  obtain ⟨fuel', hfuel'⟩ : ∃ fuel', fuel - s.length = fuel' + 1 := ⟨fuel - s.length - 1, by omega⟩
  refine ⟨fuel', by omega, ?_⟩
  rw [timeLoop_number _ valid hs (by omega), hfuel', hq, timeLoop_unit hb hunit, Time.add_eq hv htotal, dropWhile_spaces hhead]
  by_cases hfits : total + v * u.unit isSec ≤ maxInt32
  · rw [if_pos hfits, if_pos hfits, Option.bind_some]
  · rw [if_neg hfits, if_neg hfits, Option.bind_none]

-- The loop adds the items up, or finds that they are too many.
theorem Items.run {isSec : Bool} {behind : UInt8} {step : Step} {text : Bytes} {items : List (Nat × Step)} {final : Nat}
    (h : Items isSec step text items final) (hsmall : ∀ i ∈ items, i.1 < 2 ^ 64) (hend : EndsWell behind text) {fuel total : Nat}
    (valid : Bool) (hfuel : text.length ≤ fuel) (htotal : total ≤ maxInt32) :
    (total + sum isSec items ≤ maxInt32 → ∃ step', timeLoop isSec behind fuel text ⟨0, total, step, valid⟩ =
        some ⟨toInt64 final, (total + sum isSec items : Nat), step', valid || text ≠ []⟩) ∧
      (maxInt32 < total + sum isSec items → timeLoop isSec behind fuel text ⟨0, total, step, valid⟩ = none) := by
  induction h generalizing fuel total valid with
  | done step =>
      refine ⟨fun _ => ⟨step, ?_⟩, fun hbig => absurd hbig (Nat.not_lt.mpr (by simpa [sum] using htotal))⟩
      rw [timeLoop_nil, toInt64_zero]
      simp [sum]
  | @number step s v hs =>
      refine ⟨fun _ => ⟨step, ?_⟩, fun hbig => absurd hbig (Nat.not_lt.mpr (by simpa [sum] using htotal))⟩
      obtain ⟨-, c, t, rfl, -⟩ := numeral_cons hs
      have hgo : timeLoop isSec behind fuel (c :: t ++ []) ⟨0, total, step, valid⟩ = _ := timeLoop_number [] valid hs hfuel
      rw [List.append_nil, timeLoop_nil] at hgo
      rw [hgo]
      simp [sum]
  | @item step u s text v n final items hs hu hlt hn hrest ih =>
      obtain ⟨-, c, t, hcons, -⟩ := numeral_cons hs
      have hnext : u = .min → (List.replicate n 32 ++ text).head?.getD behind ≠ 115 := by
        rintro rfl
        refine no_second hrest.head hn fun hnil => hend ?_
        rw [hnil, hn hnil, List.getLast?_append_of_ne_nil]
        · rfl
        · exact List.cons_ne_nil _ _
      have hend' : EndsWell behind text := by
        by_cases hnil : text = []
        · rw [hnil]
          rintro ⟨⟩
        · rw [← List.append_assoc, ← List.append_assoc] at hend
          exact hend.of_append hnil
      obtain ⟨fuel', hfuel', hgo⟩ := timeLoop_item valid hs (hsmall (v, u) List.mem_cons_self) hu hlt hrest.head
        hnext hfuel htotal
      have hsum : total + sum isSec ((v, u) :: items) = total + v * u.unit isSec + sum isSec items := by
        simp only [sum, List.map_cons, List.sum_cons]
        omega
      have hsmall' : ∀ i ∈ items, i.1 < 2 ^ 64 := fun i hi => hsmall i (List.mem_cons_of_mem _ hi)
      rw [hgo, hsum]
      by_cases hfits : total + v * u.unit isSec ≤ maxInt32
      · obtain ⟨hsome, hnone⟩ := ih hsmall' hend' true hfuel' hfits
        rw [if_pos hfits]
        refine ⟨fun hle => ?_, hnone⟩
        obtain ⟨step', hrun⟩ := hsome hle
        refine ⟨step', hrun.trans ?_⟩
        simp [hcons]
      · rw [if_neg hfits]
        exact ⟨fun hle => by omega, fun _ => rfl⟩

def Digits (s : Bytes) : Prop := ∀ c ∈ s, (decimalDigit c).isSome

-- What an accepted text looks like: the digits in front of a unit may be missing, and digits with spaces behind them may
-- stand before those at the end.
inductive Accepted (isSec : Bool) : Step → Bytes → Prop where
  | number {step : Step} {s : Bytes} (hs : Digits s) : Accepted isSec step s
  | spaced {step : Step} {s t : Bytes} {n : Nat} (hs : Digits s) (hlt : step.index < Step.sec.index) (ht : Digits t) :
      Accepted isSec step (s ++ 32 :: (List.replicate n 32 ++ t))
  | item {step u : Step} {s text : Bytes} {n : Nat} (hs : Digits s) (hu : IsUnit isSec u) (hlt : step.index < u.index)
      (hrest : Accepted isSec u text) : Accepted isSec step (s ++ (u.name ++ (List.replicate n 32 ++ text)))

theorem Digits.cons {c : UInt8} {s : Bytes} (hc : (decimalDigit c).isSome) (h : Digits s) : Digits (c :: s) := by
  rintro b (_ | ⟨_, hb⟩)
  · exact hc
  · exact h b hb

theorem Accepted.digit {isSec : Bool} {step : Step} {c : UInt8} {text : Bytes} (hc : (decimalDigit c).isSome)
    (h : Accepted isSec step text) : Accepted isSec step (c :: text) := by
  cases h with
  | number hs => exact .number (hs.cons hc)
  | spaced hs hlt ht =>
      rw [← List.cons_append]
      exact .spaced (hs.cons hc) hlt ht
  | item hs hu hlt hrest =>
      rw [← List.cons_append]
      exact .item (hs.cons hc) hu hlt hrest

theorem char_inj {c d : UInt8} (h : Char.ofUInt8 c = Char.ofUInt8 d) : c = d := by
  apply UInt8.toNat_inj.mp
  have hnat := congrArg Char.toNat h
  exact hnat

theorem unitCase_some {step u u' : Step} {scale scale' : Nat} {p q : Bytes} (h : unitCase step u' scale' q = some (u, scale, p)) :
    u = u' ∧ p = q ∧ step.index < u'.index := by
  rw [unitCase] at h
  split at h
  · cases h
  next hle =>
      cases h
      exact ⟨rfl, rfl, Nat.not_le.mp hle⟩

theorem isUnit_of {isSec : Bool} {u : Step} (h : u ≠ .start ∧ u ≠ .last ∧ u ≠ .msec) : IsUnit isSec u :=
  ⟨h.1, h.2.1, fun hmsec => absurd hmsec h.2.2⟩

theorem timeUnit_inv {isSec : Bool} {behind c : UInt8} {step u : Step} {p q : Bytes} {scale : Nat}
    (h : timeUnit isSec behind step c q = some (u, scale, p)) (hend : EndsWell behind (c :: q)) :
    c = 32 ∧ u = .last ∧ p = q ∧ step.index < Step.sec.index ∨ c :: q = u.name ++ p ∧ IsUnit isSec u ∧ step.index < u.index := by
  unfold timeUnit at h
  split at h
  next hc =>
      obtain rfl := char_inj (d := 121) hc
      split at h
      · cases h
      next hle =>
          cases h
          exact Or.inr ⟨rfl, isUnit_of (by decide), Nat.lt_succ_of_le (Nat.not_lt.mp hle)⟩
  next hc =>
      obtain rfl := char_inj (d := 77) hc
      obtain ⟨rfl, rfl, hlt⟩ := unitCase_some h
      exact Or.inr ⟨rfl, isUnit_of (by decide), hlt⟩
  next hc =>
      obtain rfl := char_inj (d := 119) hc
      obtain ⟨rfl, rfl, hlt⟩ := unitCase_some h
      exact Or.inr ⟨rfl, isUnit_of (by decide), hlt⟩
  next hc =>
      obtain rfl := char_inj (d := 100) hc
      obtain ⟨rfl, rfl, hlt⟩ := unitCase_some h
      exact Or.inr ⟨rfl, isUnit_of (by decide), hlt⟩
  next hc =>
      obtain rfl := char_inj (d := 104) hc
      obtain ⟨rfl, rfl, hlt⟩ := unitCase_some h
      exact Or.inr ⟨rfl, isUnit_of (by decide), hlt⟩
  next hc =>
      obtain rfl := char_inj (d := 109) hc
      split at h
      next hsecond =>
          split at h
          · cases h
          next hsec =>
              obtain ⟨rfl, rfl, hlt⟩ := unitCase_some h
              cases q with
              | nil => exact absurd hsecond (hend rfl)
              | cons b q =>
                  obtain rfl : b = 115 := hsecond
                  exact Or.inr ⟨rfl, ⟨by decide, by decide, fun _ => Bool.eq_false_iff.mpr hsec⟩, hlt⟩
      next =>
          obtain ⟨rfl, rfl, hlt⟩ := unitCase_some h
          exact Or.inr ⟨rfl, isUnit_of (by decide), hlt⟩
  next hc =>
      obtain rfl := char_inj (d := 115) hc
      obtain ⟨rfl, rfl, hlt⟩ := unitCase_some h
      exact Or.inr ⟨rfl, isUnit_of (by decide), hlt⟩
  next hc =>
      obtain rfl := char_inj (d := 32) hc
      split at h
      · cases h
      next hle =>
          cases h
          exact Or.inl ⟨rfl, rfl, rfl, Nat.not_le.mp hle⟩
  next => cases h

theorem Time.add_some {isSec : Bool} {s s' : Time} {u : Step} {scale : Nat} (h : s.add isSec u scale = some s') :
    s'.step = u ∧ s'.valid = s.valid := by
  obtain ⟨-, h⟩ := Option.ite_none_left_eq_some.mp h
  obtain ⟨-, h⟩ := Option.ite_none_left_eq_some.mp h
  rw [← Option.some.inj h]
  exact ⟨rfl, rfl⟩

theorem spaces_dropWhile (p : Bytes) : ∃ n, p = List.replicate n 32 ++ p.dropWhile (· = 32) := by
  have hall : p.takeWhile (· = 32) = List.replicate (p.takeWhile (· = 32)).length 32 := by
    rw [List.eq_replicate_iff]
    exact ⟨rfl, fun c hc => of_decide_eq_true (List.all_eq_true.mp List.all_takeWhile c hc)⟩
  refine ⟨(p.takeWhile (· = 32)).length, ?_⟩
  rw [← hall, List.takeWhile_append_dropWhile]

theorem EndsWell.dropWhile {behind : UInt8} {s p : Bytes} (h : EndsWell behind (s ++ p)) : EndsWell behind (p.dropWhile (· = 32)) := by
  obtain ⟨n, hp⟩ := spaces_dropWhile p
  by_cases hnil : p.dropWhile (· = 32) = []
  · rw [hnil]
    rintro ⟨⟩
  · rw [hp, ← List.append_assoc] at h
    exact h.of_append hnil

theorem timeLoop_sound {isSec : Bool} {behind : UInt8} {fuel : Nat} {text : Bytes} {s out : Time} (hfuel : text.length ≤ fuel)
    (hend : EndsWell behind text) (h : timeLoop isSec behind fuel text s = some out) :
    (if s.step = .last then Digits text else Accepted isSec s.step text) ∧
      (out.valid = true → s.valid = true ∨ ∃ c ∈ text, (decimalDigit c).isSome) := by
  induction fuel generalizing text s with
  | zero =>
      obtain rfl := List.length_eq_zero_iff.mp (Nat.le_zero.mp hfuel)
      cases h
      refine ⟨?_, Or.inl⟩
      split
      · rintro _ ⟨⟩
      · exact .number (by rintro _ ⟨⟩)
  | succ fuel ih =>
      cases text with
      | nil =>
          cases h
          refine ⟨?_, Or.inl⟩
          split
          · rintro _ ⟨⟩
          · exact .number (by rintro _ ⟨⟩)
      | cons c q =>
          rw [List.length_cons] at hfuel
          cases hc : decimalDigit c with
          | some d =>
              have hsome : (decimalDigit c).isSome := by rw [hc]; rfl
              have hrest : EndsWell behind q := by
                by_cases hnil : q = []
                · rw [hnil]
                  rintro ⟨⟩
                · exact hend.of_append (s := [c]) hnil
              rw [timeLoop, hc] at h
              obtain ⟨hform, -⟩ := ih (by omega) hrest h
              refine ⟨?_, fun _ => Or.inr ⟨c, List.mem_cons_self, hsome⟩⟩
              split at hform
              next hlast => rw [if_pos hlast]; exact hform.cons hsome
              next hlast => rw [if_neg hlast]; exact hform.digit hsome
          | none =>
              cases hunit : timeUnit isSec behind s.step c q with
              | none =>
                  rw [timeLoop, hc] at h
                  dsimp only at h
                  rw [hunit] at h
                  cases h
              | some out' =>
                  obtain ⟨u, scale, p⟩ := out'
                  rw [timeLoop_unit hc hunit, Option.bind_eq_some_iff] at h
                  obtain ⟨s', hadd, hrun⟩ := h
                  obtain ⟨hstep, hvalid⟩ := Time.add_some hadd
                  obtain ⟨n, hn⟩ := spaces_dropWhile p
                  have hdrop : (p.dropWhile (· = 32)).length ≤ p.length := (List.dropWhile_suffix _).length_le
                  have hmem : ∀ b ∈ p.dropWhile (· = 32), b ∈ p := fun b hb => (List.dropWhile_suffix _).subset hb
                  obtain ⟨rfl, rfl, rfl, hlt⟩ | ⟨hname, hisUnit, hlt⟩ := timeUnit_inv hunit hend
                  · have hnot : s.step ≠ .last := by
                      intro hlast
                      rw [hlast] at hlt
                      exact absurd hlt (by decide)
                    obtain ⟨hform, hdigit⟩ := ih (Nat.le_trans hdrop (by omega)) (hend.dropWhile (s := [32])) hrun
                    rw [hstep, if_pos rfl] at hform
                    rw [if_neg hnot, hn]
                    refine ⟨.spaced (s := []) (by rintro _ ⟨⟩) hlt hform, fun hout => ?_⟩
                    obtain hs | ⟨b, hb, hd⟩ := hdigit hout
                    · exact Or.inl (hvalid ▸ hs)
                    · exact Or.inr ⟨b, List.mem_cons_of_mem _ (List.mem_append_right _ hb), hd⟩
                  · have hpos := hisUnit.name_pos
                    have hlen := congrArg List.length hname
                    rw [List.length_cons, List.length_append] at hlen
                    have hnot : s.step ≠ .last := by
                      intro hlast
                      have hle : u.index ≤ Step.last.index := by cases u <;> decide
                      rw [hlast] at hlt
                      omega
                    rw [hname] at hend
                    obtain ⟨hform, hdigit⟩ := ih (Nat.le_trans hdrop (by omega)) hend.dropWhile hrun
                    rw [hstep, if_neg hisUnit.2.1] at hform
                    rw [if_neg hnot, hname]
                    refine ⟨?_, fun hout => ?_⟩
                    · conv => rhs; rw [hn]
                      exact .item (s := []) (by rintro _ ⟨⟩) hisUnit hlt hform
                    · obtain hs | ⟨b, hb, hd⟩ := hdigit hout
                      · exact Or.inl (hvalid ▸ hs)
                      · exact Or.inr ⟨b, List.mem_append_right _ (hmem b hb), hd⟩

theorem sum_mem {isSec : Bool} {items : List (Nat × Step)} {i : Nat × Step} (hi : i ∈ items) : i.1 ≤ sum isSec items := by
  induction items with
  | nil => cases hi
  | cons j items ih =>
      have hcons : sum isSec (j :: items) = j.1 * j.2.unit isSec + sum isSec items := rfl
      rw [hcons]
      cases hi with
      | head => exact Nat.le_add_right_of_le (Nat.le_mul_of_pos_right _ (Step.unit_pos isSec i.2))
      | tail _ hmem => exact Nat.le_add_left_of_le (ih hmem)

-- A text of the grammar is added up, and an accepted text is one of it but for numbers that are missing.
theorem parseTime_items (isSec : Bool) (behind : UInt8) (text : Bytes) (hend : EndsWell behind text) :
    (∀ items final, Items isSec (firstStep isSec) text items final → text ≠ [] →
      (sum isSec items ≤ maxInt32 → sum isSec items + final * firstScale isSec < 2 ^ 63 →
        parseTime isSec behind text = (sum isSec items + final * firstScale isSec : Nat)) ∧
      ((∀ i ∈ items, i.1 < 2 ^ 64) → maxInt32 < sum isSec items → parseTime isSec behind text = -1)) ∧
    (parseTime isSec behind text ≠ -1 → Accepted isSec (firstStep isSec) text ∧ ∃ c ∈ text, (decimalDigit c).isSome) := by
  have hzero : ((0 : Nat) : Int) = 0 := rfl
  refine ⟨fun items final h hne => ⟨fun hfits hrange => ?_, fun hsmall hbig => ?_⟩, fun hok => ?_⟩
  · have hlt : maxInt32 < 2 ^ 64 := by decide
    have hsmall : ∀ i ∈ items, i.1 < 2 ^ 64 := fun i hi => Nat.lt_of_le_of_lt (Nat.le_trans (sum_mem hi) hfits) hlt
    obtain ⟨step', hrun⟩ := (h.run hsmall hend false (Nat.le_refl _) (Nat.zero_le maxInt32)).1 (by omega)
    have hexact : toInt64 ((0 + sum isSec items : Nat) + toInt64 final * (firstScale isSec : Nat)) =
        (sum isSec items + final * firstScale isSec : Nat) := by
      rw [Int.add_comm, toInt64_mul_add]
      have hcast : (final : Int) * (firstScale isSec : Nat) + (0 + sum isSec items : Nat) =
          (sum isSec items + final * firstScale isSec : Nat) := by
        push_cast
        omega
      rw [hcast]
      exact toInt64_of_range _ (by omega) (by omega)
    have hvalid : (false || decide (text ≠ [])) = true := by simp [hne]
    rw [hzero] at hrun
    rw [parseTime, hrun]
    dsimp only
    rw [if_pos hvalid, hexact]
  · have hrun := (h.run hsmall hend false (Nat.le_refl _) (Nat.zero_le maxInt32)).2 (by omega)
    rw [hzero] at hrun
    rw [parseTime, hrun]
  · unfold parseTime at hok
    split at hok
    · exact absurd rfl hok
    next s hrun =>
        split at hok
        next hvalid =>
            obtain ⟨hform, hdigit⟩ := timeLoop_sound (Nat.le_refl _) hend hrun
            have hfirst : firstStep isSec ≠ .last := by cases isSec <;> decide
            dsimp only at hform
            rw [if_neg hfirst] at hform
            refine ⟨hform, ?_⟩
            obtain hno | hyes := hdigit hvalid
            · cases hno
            · exact hyes
        next => exact absurd rfl hok

theorem parseTime_items_hour :
    (∀ items final, Items true (firstStep true) (ngxString "1h 30m") items final → ngxString "1h 30m" ≠ [] →
      (sum true items ≤ maxInt32 → sum true items + final * firstScale true < 2 ^ 63 →
        parseTime true 0 (ngxString "1h 30m") = (sum true items + final * firstScale true : Nat)) ∧
      ((∀ i ∈ items, i.1 < 2 ^ 64) → maxInt32 < sum true items → parseTime true 0 (ngxString "1h 30m") = -1)) ∧
    (parseTime true 0 (ngxString "1h 30m") ≠ -1 →
      Accepted true (firstStep true) (ngxString "1h 30m") ∧ ∃ c ∈ ngxString "1h 30m", (decimalDigit c).isSome) :=
  parseTime_items true 0 (ngxString "1h 30m") fun _ => by decide

-- Years and months are not for milliseconds.
theorem year_refused :
    Items false .start (ngxString "0y5s") [(0, .year), (5, .sec)] 0 ∧ sum false [(0, .year), (5, .sec)] = 5000 ∧
      parseTime false 0 (ngxString "0y5s") = -1 := by
  have htext : ngxString "0y5s" = [48] ++ (Step.year.name ++ (List.replicate 0 32 ++ ([53] ++ (Step.sec.name ++
      (List.replicate 0 32 ++ []))))) := by decide +kernel
  refine ⟨?_, by decide, by decide⟩
  rw [htext]
  exact .item (by decide) (isUnit_of (by decide)) (by decide) (fun _ => rfl)
    (.item (by decide) (isUnit_of (by decide)) (by decide) (fun _ => rfl) (.done .sec))

end Nginx.ParseTime
