import Nginx.Core.Bytes

namespace Nginx.Number

def decimalDigit (c : UInt8) : Option Nat := if c < 48 ∨ 57 < c then none else some (c.toNat - 48)

def hexDigit (ch : UInt8) : Option Nat :=
  let c := ch ||| 0x20
  if 48 ≤ ch ∧ ch ≤ 57 then some (ch.toNat - 48)
  else if 97 ≤ c ∧ c ≤ 102 then some (c.toNat - 97 + 10)
  else none

-- for (value = 0; n--; line++), where none is NGX_ERROR
def accumulate (digit : UInt8 → Option Nat) (base : Int) : Int → Bytes → Option Int
  | value, [] => some value
  | value, c :: line =>
      match digit c with
      | none => none
      | some d => accumulate digit base (toInt64 (value * base + d)) line

-- if (value < 0) { return NGX_ERROR; }
def checked (value : Int) : Int := if value < 0 then -1 else value

-- The parsers differ in the digits and in the type of the result, which has 64 bits in each of them.
def parseNumber (digit : UInt8 → Option Nat) (base : Int) (line : Bytes) : Int :=
  if line = [] then -1
  else
    match accumulate digit base 0 line with
    | none => -1
    | some value => checked value

-- ngx_atoi, ngx_atosz, ngx_atoof, ngx_atotm and ngx_hextoi
def atoi (line : Bytes) : Int := parseNumber decimalDigit 10 line

def atosz (line : Bytes) : Int := parseNumber decimalDigit 10 line

def atoof (line : Bytes) : Int := parseNumber decimalDigit 10 line

def atotm (line : Bytes) : Int := parseNumber decimalDigit 10 line

def hextoi (line : Bytes) : Int := parseNumber hexDigit 16 line

-- The loop of ngx_atofp: value and what is left of point
def atofpLoop : Int → Nat → Nat → Bytes → Option (Int × Nat)
  | value, _, point, [] => some (value, point)
  | value, dot, point, c :: line =>
      if point = 0 then none
      else if c = 46 then if dot ≠ 0 then none else atofpLoop value 1 point line
      else
        match decimalDigit c with
        | none => none
        | some d => atofpLoop (toInt64 (value * 10 + d)) dot (point - dot) line

-- while (point--) { value = value * 10; }
def scale : Nat → Int → Int
  | 0, value => value
  | point + 1, value => scale point (toInt64 (value * 10))

-- ngx_atofp
def atofp (line : Bytes) (point : Nat) : Int :=
  if line = [] then -1
  else
    match atofpLoop 0 0 point line with
    | none => -1
    | some (value, point) => checked (scale point value)

-- The switch of ngx_parse_size and ngx_parse_offset on line->data[len - 1]: the bytes that are read as a number, and
-- scale. In front of an empty text is the byte before; len-- makes of its length the largest size_t, and behind is what
-- the memory holds from its data on.
def unitOf (units : List (UInt8 × Nat)) (before : UInt8) (behind : Nat → UInt8) (line : Bytes) : Bytes × Nat :=
  match units.lookup (tolower (line.getLast?.getD before)) with
  | some scale => (if line = [] then (List.range (2 ^ 64 - 1)).map behind else line.dropLast, scale)
  | none => (line, 1)

-- ngx_parse_size and ngx_parse_offset differ in their units and in the type of the result.
def parseUnits (units : List (UInt8 × Nat)) (before : UInt8) (behind : Nat → UInt8) (line : Bytes) : Int :=
  let (line, scale) := unitOf units before behind line
  let size := atosz line
  if size = -1 then -1 else toInt64 (size * scale)

def sizeUnits : List (UInt8 × Nat) := [(107, 1024), (109, 1024 * 1024)]

def offsetUnits : List (UInt8 × Nat) := [(107, 1024), (109, 1024 * 1024), (103, 1024 * 1024 * 1024)]

def parseSize (before : UInt8) (behind : Nat → UInt8) (line : Bytes) : Int := parseUnits sizeUnits before behind line

def parseOffset (before : UInt8) (behind : Nat → UInt8) (line : Bytes) : Int := parseUnits offsetUnits before behind line

-- The mathematical value of a digit and of a text
def digitOf (base : Nat) (c : UInt8) : Option Nat := ((ngxString "0123456789abcdef").take base).idxOf? (tolower c)

def numeralFrom (base : Nat) : Nat → Bytes → Option Nat
  | n, [] => some n
  | n, c :: line => (digitOf base c).bind fun d => numeralFrom base (n * base + d) line

def numeral (base : Nat) (line : Bytes) : Option Nat := if line = [] then none else numeralFrom base 0 line

theorem digits_eq : ngxString "0123456789abcdef" = [48, 49, 50, 51, 52, 53, 54, 55, 56, 57, 97, 98, 99, 100, 101, 102] :=
  (ngxString_ofList _).trans rfl

theorem digits (c : UInt8) : decimalDigit c = digitOf 10 c ∧ hexDigit c = digitOf 16 c := by
  apply byte_cases (P := fun c => decimalDigit c = digitOf 10 c ∧ hexDigit c = digitOf 16 c)
  simp only [digitOf, digits_eq]
  decide +kernel

theorem decimalDigit_eq (c : UInt8) : decimalDigit c = digitOf 10 c := (digits c).1

theorem hexDigit_eq (c : UInt8) : hexDigit c = digitOf 16 c := (digits c).2

theorem accumulate_eq {digit : UInt8 → Option Nat} {base : Nat} (hdigit : ∀ c, digit c = digitOf base c) (n : Nat) (line : Bytes) :
    accumulate digit base (toInt64 n) line = (numeralFrom base n line).map fun v : Nat => toInt64 v := by
  induction line generalizing n with
  | nil => rfl
  | cons c line ih =>
      rw [accumulate, numeralFrom, hdigit]
      cases digitOf base c with
      | none => rfl
      | some d =>
          have hstep := ih (n * base + d)
          push_cast at hstep
          simpa [toInt64_mul_add] using hstep

-- A wrapped number is what it was, negative, or a smaller one.
theorem toInt64_natCast (v : Nat) :
    toInt64 v = if v % 2 ^ 64 < 2 ^ 63 then (v : Int) % 2 ^ 64 else (v : Int) % 2 ^ 64 - 2 ^ 64 := by
  unfold toInt64
  rw [Int.bmod_def]
  split_ifs <;> omega

theorem parseNumber_eq {digit : UInt8 → Option Nat} {base : Nat} (hdigit : ∀ c, digit c = digitOf base c) (line : Bytes) :
    parseNumber digit base line = match numeral base line with
      | none => -1
      | some v => checked (toInt64 v) := by
  have hrun := accumulate_eq hdigit 0 line
  rw [parseNumber, numeral]
  split
  · rfl
  · have hzero : toInt64 (0 : Nat) = 0 := rfl
    rw [hzero] at hrun
    rw [hrun]
    cases numeralFrom base 0 line <;> rfl

theorem decimal_eq (line : Bytes) :
    parseNumber decimalDigit 10 line = match numeral 10 line with
      | none => -1
      | some v => checked (toInt64 v) :=
  parseNumber_eq decimalDigit_eq line

-- What is returned for a text with a value, or with none
def Exact (result : Int) (value : Option Nat) : Prop := result = -1 ∨ ∃ v : Nat, value = some v ∧ result = v

-- A number that wraps round to a negative one is an error.
def Fits (v : Nat) : Prop := v < 2 ^ 64 ∨ 2 ^ 63 ≤ v % 2 ^ 64

theorem checked_eq (v : Nat) : checked (toInt64 v) = if v % 2 ^ 64 < 2 ^ 63 then ((v % 2 ^ 64 : Nat) : Int) else -1 := by
  rw [checked, toInt64_natCast]
  split_ifs <;> omega

theorem checked_exact_iff (v : Nat) : Exact (checked (toInt64 v)) (some v) ↔ Fits v := by
  simp only [Exact, Fits, checked_eq, Option.some.injEq, exists_eq_left']
  split_ifs with hsmall
  · simp only [false_or, Int.natCast_inj]
    omega
  · exact iff_of_true (Or.inl rfl) (Or.inr (by omega))

theorem checked_small {v : Nat} (h : v < 2 ^ 63) : checked (toInt64 v) = v := by
  rw [toInt64_of_range v (by omega) (by omega), checked, if_neg (by omega)]

section

variable {digit : UInt8 → Option Nat} {base : Nat} (hdigit : ∀ c, digit c = digitOf base c)
include hdigit

theorem parseNumber_exact_iff (line : Bytes) :
    Exact (parseNumber digit base line) (numeral base line) ↔ ∀ v, numeral base line = some v → Fits v := by
  rw [parseNumber_eq hdigit]
  cases numeral base line with
  | none => simp [Exact]
  | some v => simpa using checked_exact_iff v

theorem parseNumber_small {line : Bytes} {v : Nat} (h : numeral base line = some v) (hv : v < 2 ^ 63) :
    parseNumber digit base line = v := by
  rw [parseNumber_eq hdigit, h]
  exact checked_small hv

end

-- The value of a text with a unit
def unitValue (units : List (UInt8 × Nat)) (line : Bytes) : Option Nat :=
  match line.getLast? with
  | none => none
  | some c =>
      match units.lookup (tolower c) with
      | some scale => (numeral 10 line.dropLast).map (· * scale)
      | none => numeral 10 line

section

variable {units : List (UInt8 × Nat)} {before : UInt8} {behind : Nat → UInt8}

theorem unitOf_value (before : UInt8) (behind : Nat → UInt8) {line : Bytes} (hline : line ≠ []) :
    unitValue units line =
      (numeral 10 (unitOf units before behind line).1).map (· * (unitOf units before behind line).2) := by
  rw [unitValue, unitOf, List.getLast?_eq_some_getLast hline, Option.getD_some]
  dsimp only
  cases units.lookup (tolower (line.getLast hline)) with
  | none => simp
  | some scale => simp [hline]

theorem unitOf_scale (before : UInt8) (behind : Nat → UInt8) (hunits : ∀ u ∈ units, 2 ∣ u.2 ∧ u.2 ≠ 0) (line : Bytes) :
    (unitOf units before behind line).2 = 1 ∨
      2 ∣ (unitOf units before behind line).2 ∧ (unitOf units before behind line).2 ≠ 0 := by
  rw [unitOf]
  cases hunit : units.lookup (tolower (line.getLast?.getD before)) with
  | none => exact Or.inl rfl
  | some scale =>
      obtain ⟨l₁, l₂, hmem, -⟩ := List.lookup_eq_some_iff.mp hunit
      exact Or.inr (hunits _ (hmem ▸ List.mem_append_right l₁ List.mem_cons_self))

theorem toInt64_product {scale : Nat} (hscale : scale = 1 ∨ 2 ∣ scale ∧ scale ≠ 0) {w : Nat} (hw : w < 2 ^ 63) :
    toInt64 (w * scale) ≠ -1 ∧ toInt64 (w * scale) < 2 ^ 63 := by
  have hcast : (w * scale : Int) = (w * scale : Nat) := by push_cast; rfl
  rw [hcast, toInt64_natCast]
  obtain rfl | ⟨⟨k, rfl⟩, -⟩ := hscale
  · split_ifs <;> omega
  · have heven : w * (2 * k) = 2 * (w * k) := by rw [Nat.mul_left_comm]
    rw [heven]
    split_ifs <;> omega

-- The number is multiplied in 64 bits, and the product is not checked.
theorem parseUnits_exact_iff (hunits : ∀ u ∈ units, 2 ∣ u.2 ∧ u.2 ≠ 0) (line : Bytes) :
    Exact (parseUnits units before behind line) (unitValue units line) ↔
      ∀ v, numeral 10 (unitOf units before behind line).1 = some v →
        line ≠ [] ∧ v * (unitOf units before behind line).2 < 2 ^ 63 ∨ 2 ^ 63 ≤ v % 2 ^ 64 := by
  have hscale := unitOf_scale before behind hunits line
  have hvalue : line ≠ [] → unitValue units line = _ := unitOf_value before behind
  rw [parseUnits]
  revert hscale hvalue
  obtain ⟨digits, scale⟩ := unitOf units before behind line
  intro hscale hvalue
  dsimp only at hscale hvalue ⊢
  rw [atosz, decimal_eq]
  cases hnumeral : numeral 10 digits with
  | none => simp [Exact]
  | some v =>
      simp only [Option.some.injEq, forall_eq']
      by_cases hneg : 2 ^ 63 ≤ v % 2 ^ 64
      · have herror : checked (toInt64 v) = -1 := by rw [checked_eq, if_neg (by omega)]
        rw [if_pos herror]
        exact iff_of_true (Or.inl rfl) (Or.inr hneg)
      · have hread : checked (toInt64 v) = (v % 2 ^ 64 : Nat) := by rw [checked_eq, if_pos (by omega)]
        have hproduct := toInt64_product hscale (w := v % 2 ^ 64) (by omega)
        have hnonneg : ((v % 2 ^ 64 : Nat) : Int) ≠ -1 := by omega
        rw [hread, if_neg hnonneg]
        constructor
        · rintro (herror | ⟨u, hu, hresult⟩)
          · exact absurd herror hproduct.1
          · have hline : line ≠ [] := by
              rintro rfl
              cases hu
            rw [hvalue hline, hnumeral, Option.map_some, Option.some.injEq] at hu
            have hsmall := hproduct.2
            exact Or.inl ⟨hline, by omega⟩
        · rintro (⟨hline, hsmall⟩ | hwrap)
          · have hle : v ≤ v * scale := Nat.le_mul_of_pos_right v (by omega)
            have hmod : v % 2 ^ 64 = v := Nat.mod_eq_of_lt (by omega)
            refine Or.inr ⟨v * scale, by rw [hvalue hline, hnumeral]; rfl, ?_⟩
            rw [hmod]
            exact_mod_cast toInt64_of_range (v * scale : Nat) (by omega) (by omega)
          · exact absurd hwrap hneg

-- A text whose value is representable has its value.
theorem parseUnits_small (hunits : ∀ u ∈ units, 2 ∣ u.2 ∧ u.2 ≠ 0) {line : Bytes} {v : Nat}
    (h : unitValue units line = some v) (hv : v < 2 ^ 63) : parseUnits units before behind line = v := by
  have hline : line ≠ [] := by
    rintro rfl
    cases h
  have hscale := unitOf_scale before behind hunits line
  have hvalue : unitValue units line = _ := unitOf_value before behind hline
  rw [h] at hvalue
  rw [parseUnits]
  revert hscale hvalue
  obtain ⟨digits, scale⟩ := unitOf units before behind line
  intro hscale hvalue
  obtain ⟨n, hn, hproduct⟩ := Option.map_eq_some_iff.mp hvalue.symm
  dsimp only at hscale hproduct hn ⊢
  have hle : n ≤ n * scale := Nat.le_mul_of_pos_right n (by omega)
  have hread : atosz digits = n := parseNumber_small decimalDigit_eq hn (by omega)
  rw [hread, if_neg (by omega), ← hproduct]
  exact_mod_cast toInt64_of_range (n * scale : Nat) (by omega) (by omega)

end

-- The digits of a text with a point, and how many of them are behind it
def fixedPoint (line : Bytes) : Option (Nat × Nat) :=
  let whole := line.takeWhile (· ≠ 46)
  let fraction := (line.dropWhile (· ≠ 46)).drop 1
  (numeralFrom 10 0 (whole ++ fraction)).map fun v => (v, fraction.length)

theorem scale_eq (n : Nat) (v : Int) : scale n (toInt64 v) = toInt64 (v * 10 ^ n) := by
  induction n generalizing v with
  | zero => simp [scale]
  | succ n ih =>
      have hstep := toInt64_mul_add v 10 0
      rw [Int.add_zero, Int.add_zero] at hstep
      rw [scale, hstep, ih, Int.pow_succ, Int.mul_assoc, Int.mul_comm 10]

theorem digit_point : digitOf 10 46 = none := by decide

-- Behind the point
theorem atofpLoop_fraction (n point : Nat) (line : Bytes) :
    atofpLoop (toInt64 n) 1 point line =
      if line.length ≤ point then (numeralFrom 10 n line).map fun v : Nat => (toInt64 v, point - line.length) else none := by
  induction line generalizing n point with
  | nil => simp [atofpLoop, numeralFrom]
  | cons c line ih =>
      have hstep : ∀ d : Nat, toInt64 (toInt64 n * 10 + d) = toInt64 (n * 10 + d : Nat) := fun d => by
        rw [toInt64_mul_add]
        push_cast
        rfl
      rw [atofpLoop, numeralFrom, decimalDigit_eq]
      by_cases hpoint : point = 0
      · rw [if_pos hpoint, if_neg (by rw [List.length_cons]; omega)]
      · rw [if_neg hpoint]
        by_cases hc : c = 46
        · subst hc
          simp [digit_point]
        · rw [if_neg hc]
          cases digitOf 10 c with
          | none => simp
          | some d =>
              dsimp only
              rw [hstep, ih, List.length_cons, Option.bind_some, Nat.sub_sub, Nat.add_comm 1]
              by_cases hlen : line.length + 1 ≤ point
              · rw [if_pos hlen, if_pos (by omega)]
              · rw [if_neg hlen, if_neg (by omega)]

theorem atofpLoop_eq (n : Nat) {point : Nat} (hpoint : point ≠ 0) (line : Bytes) :
    atofpLoop (toInt64 n) 0 point line =
      let whole := line.takeWhile (· ≠ 46)
      let fraction := (line.dropWhile (· ≠ 46)).drop 1
      if fraction.length ≤ point then
        (numeralFrom 10 n (whole ++ fraction)).map fun v : Nat => (toInt64 v, point - fraction.length)
      else none := by
  induction line generalizing n with
  | nil => simp [atofpLoop, numeralFrom]
  | cons c line ih =>
      have hstep : ∀ d : Nat, toInt64 (toInt64 n * 10 + d) = toInt64 (n * 10 + d : Nat) := fun d => by
        rw [toInt64_mul_add]
        push_cast
        rfl
      rw [atofpLoop, if_neg hpoint]
      by_cases hc : c = 46
      · subst hc
        simpa using atofpLoop_fraction n point line
      · rw [if_neg hc, decimalDigit_eq, List.takeWhile_cons_of_pos (by simpa using hc), List.dropWhile_cons_of_pos (by simpa using hc)]
        dsimp only
        rw [List.cons_append, numeralFrom]
        cases digitOf 10 c with
        | none => simp
        | some d =>
            dsimp only
            rw [hstep, Nat.sub_zero, ih]
            rfl

theorem atofp_eq (line : Bytes) (point : Nat) :
    atofp line point =
      match fixedPoint line with
      | none => -1
      | some (v, fraction) =>
          if line = [] ∨ point = 0 ∨ point < fraction then -1 else checked (toInt64 (v * 10 ^ (point - fraction) : Nat)) := by
  rw [atofp]
  by_cases hline : line = []
  · simp [hline, fixedPoint, numeralFrom]
  by_cases hpoint : point = 0
  · cases line with
    | nil => exact absurd rfl hline
    | cons c line =>
        rw [if_neg hline, hpoint, atofpLoop, if_pos rfl]
        cases fixedPoint (c :: line) <;> simp
  have hloop := atofpLoop_eq 0 hpoint line
  have hzero : toInt64 (0 : Nat) = 0 := rfl
  rw [hzero] at hloop
  rw [if_neg hline, hloop, fixedPoint]
  dsimp only
  generalize ((line.dropWhile (· ≠ 46)).drop 1).length = fraction
  cases numeralFrom 10 0 (line.takeWhile (· ≠ 46) ++ (line.dropWhile (· ≠ 46)).drop 1) with
  | none => simp
  | some v =>
      by_cases hfraction : fraction ≤ point
      · have hgo : ¬(line = [] ∨ point = 0 ∨ point < fraction) := by
          rintro (h | h | h)
          · exact hline h
          · exact hpoint h
          · omega
        have hcast : ((v * 10 ^ (point - fraction) : Nat) : Int) = v * 10 ^ (point - fraction) := by push_cast; rfl
        simp only [if_pos hfraction, Option.map_some, if_neg hgo, scale_eq, hcast]
      · have hstop : line = [] ∨ point = 0 ∨ point < fraction := Or.inr (Or.inr (by omega))
        simp only [if_neg hfraction, Option.map_some, if_pos hstop]

-- The number with point is the result, or the result is NGX_ERROR.
def ExactFixed (line : Bytes) (point : Nat) (result : Int) : Prop :=
  result = -1 ∨ ∃ v fraction, fixedPoint line = some (v, fraction) ∧ (∃ c ∈ line, c ≠ 46) ∧
    result * 10 ^ fraction = v * 10 ^ point

theorem atofp_exact_iff (line : Bytes) (point : Nat) :
    ExactFixed line point (atofp line point) ↔
      ∀ v fraction, fixedPoint line = some (v, fraction) → line = [] ∨ point = 0 ∨ point < fraction ∨
        2 ^ 63 ≤ v * 10 ^ (point - fraction) % 2 ^ 64 ∨ v * 10 ^ (point - fraction) < 2 ^ 64 ∧ ∃ c ∈ line, c ≠ 46 := by
  rw [ExactFixed, atofp_eq]
  cases fixedPoint line with
  | none => simp
  | some parts =>
      obtain ⟨v, fraction⟩ := parts
      simp only [Option.some.injEq, Prod.mk.injEq, and_imp, forall_apply_eq_imp_iff, forall_eq']
      by_cases hstop : line = [] ∨ point = 0 ∨ point < fraction
      · rw [if_pos hstop]
        refine iff_of_true (Or.inl rfl) ?_
        obtain h | h | h := hstop
        · exact Or.inl h
        · exact Or.inr (Or.inl h)
        · exact Or.inr (Or.inr (Or.inl h))
      · have hfraction : fraction ≤ point := by
          by_contra h
          exact hstop (Or.inr (Or.inr (by omega)))
        have hvalue : ∀ r : Int, r * 10 ^ fraction = v * 10 ^ point ↔ r = (v * 10 ^ (point - fraction) : Nat) := fun r => by
          have hpow : (v : Int) * 10 ^ point = (v * 10 ^ (point - fraction) : Nat) * 10 ^ fraction := by
            push_cast
            rw [Int.mul_assoc, ← Int.pow_add, Nat.sub_add_cancel hfraction]
          rw [hpow]
          exact Int.mul_eq_mul_right_iff (Int.pow_ne_zero (by decide))
        have hsplit : ∀ r : Int, (∃ v' fraction', (v = v' ∧ fraction = fraction') ∧ (∃ c ∈ line, c ≠ 46) ∧
            r * 10 ^ fraction' = v' * 10 ^ point) ↔ (∃ c ∈ line, c ≠ 46) ∧ r * 10 ^ fraction = v * 10 ^ point := by
          intro r
          constructor
          · rintro ⟨_, _, ⟨rfl, rfl⟩, h⟩
            exact h
          · intro h
            exact ⟨v, fraction, ⟨rfl, rfl⟩, h⟩
        obtain ⟨hline, hpoint⟩ : line ≠ [] ∧ point ≠ 0 := ⟨fun h => hstop (Or.inl h), fun h => hstop (Or.inr (Or.inl h))⟩
        have hfraction' : ¬point < fraction := by omega
        simp only [hsplit, hvalue, hline, hpoint, hfraction', false_or]
        generalize v * 10 ^ (point - fraction) = V
        rw [if_neg not_false, checked_eq]
        by_cases hwrap : 2 ^ 63 ≤ V % 2 ^ 64
        · rw [if_neg (by omega)]
          exact iff_of_true (Or.inl rfl) (Or.inl hwrap)
        · rw [if_pos (by omega)]
          constructor
          · rintro (herror | ⟨hdigit, hread⟩)
            · omega
            · exact Or.inr ⟨by omega, hdigit⟩
          · rintro (h | ⟨hsmall, hdigit⟩)
            · exact absurd h hwrap
            · exact Or.inr ⟨hdigit, by omega⟩

-- A text with a digit and as many digits behind the point as are asked for has its value when it is representable.
theorem atofp_small {line : Bytes} {point v fraction : Nat} (h : fixedPoint line = some (v, fraction)) (hline : line ≠ [])
    (hpoint : point ≠ 0) (hfraction : fraction ≤ point) (hv : v * 10 ^ (point - fraction) < 2 ^ 63) :
    atofp line point = (v * 10 ^ (point - fraction) : Nat) := by
  have hgo : ¬(line = [] ∨ point = 0 ∨ point < fraction) := by
    rintro (h | h | h)
    · exact hline h
    · exact hpoint h
    · omega
  rw [atofp_eq, h]
  dsimp only
  rw [if_neg hgo, checked_small hv]

theorem sizeUnits_even : ∀ u ∈ sizeUnits, 2 ∣ u.2 ∧ u.2 ≠ 0 := by decide

theorem offsetUnits_even : ∀ u ∈ offsetUnits, 2 ∣ u.2 ∧ u.2 ≠ 0 := by decide

-- The number that a text without its unit has, when it is followed by its product with the unit
def UnitFits (units : List (UInt8 × Nat)) (before : UInt8) (behind : Nat → UInt8) (line : Bytes) : Prop :=
  ∀ v, numeral 10 (unitOf units before behind line).1 = some v →
    line ≠ [] ∧ v * (unitOf units before behind line).2 < 2 ^ 63 ∨ 2 ^ 63 ≤ v % 2 ^ 64

-- A text whose value is representable is read, and a result other than NGX_ERROR is the value when nothing has wrapped
-- round to a number that is not negative.
theorem numbers_exact_iff (line : Bytes) (point : Nat) (before : UInt8) (behind : Nat → UInt8) :
    ((Exact (atoi line) (numeral 10 line) ↔ ∀ v, numeral 10 line = some v → Fits v) ∧
      (Exact (atosz line) (numeral 10 line) ↔ ∀ v, numeral 10 line = some v → Fits v) ∧
      (Exact (atoof line) (numeral 10 line) ↔ ∀ v, numeral 10 line = some v → Fits v) ∧
      (Exact (atotm line) (numeral 10 line) ↔ ∀ v, numeral 10 line = some v → Fits v) ∧
      (Exact (hextoi line) (numeral 16 line) ↔ ∀ v, numeral 16 line = some v → Fits v) ∧
      (ExactFixed line point (atofp line point) ↔
        ∀ v fraction, fixedPoint line = some (v, fraction) → line = [] ∨ point = 0 ∨ point < fraction ∨
          2 ^ 63 ≤ v * 10 ^ (point - fraction) % 2 ^ 64 ∨
          v * 10 ^ (point - fraction) < 2 ^ 64 ∧ ∃ c ∈ line, c ≠ 46) ∧
      (Exact (parseSize before behind line) (unitValue sizeUnits line) ↔ UnitFits sizeUnits before behind line) ∧
      (Exact (parseOffset before behind line) (unitValue offsetUnits line) ↔ UnitFits offsetUnits before behind line)) ∧
    ∀ v, v < 2 ^ 63 →
      (numeral 10 line = some v → atoi line = v ∧ atosz line = v ∧ atoof line = v ∧ atotm line = v) ∧
      (numeral 16 line = some v → hextoi line = v) ∧
      (unitValue sizeUnits line = some v → parseSize before behind line = v) ∧
      (unitValue offsetUnits line = some v → parseOffset before behind line = v) :=
  ⟨⟨parseNumber_exact_iff decimalDigit_eq line, parseNumber_exact_iff decimalDigit_eq line,
      parseNumber_exact_iff decimalDigit_eq line, parseNumber_exact_iff decimalDigit_eq line,
      parseNumber_exact_iff hexDigit_eq line, atofp_exact_iff line point,
      parseUnits_exact_iff sizeUnits_even line, parseUnits_exact_iff offsetUnits_even line⟩,
    fun _ hv => ⟨fun h => ⟨parseNumber_small decimalDigit_eq h hv, parseNumber_small decimalDigit_eq h hv,
        parseNumber_small decimalDigit_eq h hv, parseNumber_small decimalDigit_eq h hv⟩,
      fun h => parseNumber_small hexDigit_eq h hv, fun h => parseUnits_small sizeUnits_even h hv,
      fun h => parseUnits_small offsetUnits_even h hv⟩⟩

-- One more than 2 to the 64 is read as 1, a product wraps round to 1024, and a point without digits is a number.
theorem wrapped_numbers :
    ¬Exact (atoi (ngxString "18446744073709551617")) (numeral 10 (ngxString "18446744073709551617")) ∧
      ¬Exact (parseSize 0 (fun _ => 0) (ngxString "18014398509481985K"))
        (unitValue sizeUnits (ngxString "18014398509481985K")) ∧
      ¬ExactFixed (ngxString ".") 2 (atofp (ngxString ".") 2) := by
  have hatoi : atoi (ngxString "18446744073709551617") = 1 ∧
      numeral 10 (ngxString "18446744073709551617") = some 18446744073709551617 := by decide +kernel
  have hsize : parseSize 0 (fun _ => 0) (ngxString "18014398509481985K") = 1024 ∧
      unitValue sizeUnits (ngxString "18014398509481985K") = some 18446744073709552640 := by decide +kernel
  have hpoint : atofp (ngxString ".") 2 = 0 ∧ ∀ c ∈ ngxString ".", c = 46 := by decide +kernel
  refine ⟨?_, ?_, ?_⟩
  · rw [hatoi.1, hatoi.2]
    simp [Exact]
  · rw [hsize.1, hsize.2]
    simp [Exact]
  · rintro (herror | ⟨-, -, -, ⟨c, hc, hne⟩, -⟩)
    · rw [hpoint.1] at herror
      cases herror
    · exact hne (hpoint.2 c hc)

end Nginx.Number
