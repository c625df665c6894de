import Nginx.Core.Printf

namespace Nginx.SplitClients

open Printf

-- The loop of ngx_atofp; what is left of point comes with the value.
def atofpLoop (value : Int) (dot : Bool) (point : ℕ) : Bytes → Option (Int × ℕ)
  | [] => some (value, point)
  | c :: line =>
      if point = 0 then none
      else if c = 46 then if dot then none else atofpLoop value true point line
      else if c < 48 ∨ 57 < c then none
      else atofpLoop (toInt64 (value * 10 + (c.toNat - 48))) dot (if dot then point - 1 else point) line

-- while (point--)
def scale (value : Int) : ℕ → Int
  | 0 => value
  | point + 1 => scale (toInt64 (value * 10)) point

-- ngx_atofp, where -1 is NGX_ERROR
def atofp (line : Bytes) (point : ℕ) : Int :=
  if line = [] then -1
  else
    match atofpLoop 0 false point line with
    | none => -1
    | some (value, point) => if scale value point < 0 then -1 else scale value point

structure Part where
  percent : ℕ
  value : Bytes
  deriving DecidableEq

-- ngx_http_split_clients: value[0] and value[1] of a line of the block. When value[0] is empty, the byte in front of
-- it is looked at instead of its last one, and ngx_atofp finds the NUL behind it or the text is refused before.
def splitClients (line : Bytes × Bytes) : Option Part :=
  if line.1 = [42] then some ⟨0, line.2⟩
  else if line.1.getLast? ≠ some 37 then none
  else
    let n := atofp line.1.dropLast 2
    if n = -1 ∨ n = 0 then none else some ⟨(n % 2 ^ 32).toNat, line.2⟩

-- The loop of ngx_conf_split_clients_block over the parts
def thresholds (sum last : ℕ) : List Part → Option (List Part)
  | [] => some []
  | part :: parts =>
      let sum := if part.percent ≠ 0 then sum + part.percent else 10000
      if 10000 < sum then none
      else
        let percent := if part.percent ≠ 0 then (last + 0xffffffff / 10000 * part.percent % 2 ^ 32) % 2 ^ 32 else 0xffffffff
        (thresholds sum percent parts).map ({ part with percent } :: ·)

-- ngx_conf_split_clients_block, from the lines of the block to ctx->parts
def block (lines : List (Bytes × Bytes)) : Option (List Part) :=
  match lines.mapM splitClients with
  | none => none
  | some parts => thresholds 0 0 parts

-- The loop of ngx_http_split_clients_variable; hash is what ngx_murmur_hash2 gives.
def chosen (parts : List Part) (hash : ℕ) : Option ℕ := parts.findIdx? fun part => hash < part.percent

def splitClientsVariable (parts : List Part) (hash : ℕ) : Option Bytes := do
  let i ← chosen parts hash
  let part ← parts[i]?
  return part.value

-- The number of hundredths that digits with at most two behind a point say
def hundredths (text : Bytes) : Option ℕ :=
  let whole := text.takeWhile (· ≠ 46)
  let frac := (text.dropWhile (· ≠ 46)).drop 1
  if text ≠ [] ∧ (∀ c ∈ whole ++ frac, 48 ≤ c ∧ c ≤ 57) ∧ frac.length ≤ 2 then
    some (digitsValue 0 (whole ++ frac) * 10 ^ (2 - frac.length))
  else none

-- The percentage of a line, unless it is the one of '*'
def percentage (line : Bytes × Bytes) : Option ℕ := if line.1 = [42] then none else hundredths line.1.dropLast

theorem not_digit_dot : ¬((48 : UInt8) ≤ 46 ∧ (46 : UInt8) ≤ 57) := by decide

theorem outside_iff (c : UInt8) : (c < 48 ∨ 57 < c) ↔ ¬(48 ≤ c ∧ c ≤ 57) := by
  rw [not_and_or, UInt8.not_le, UInt8.not_le]

-- One digit more
theorem toInt64_digit (v : ℕ) {c : UInt8} (hc : 48 ≤ c ∧ c ≤ 57) :
    toInt64 (toInt64 v * 10 + (c.toNat - 48)) = toInt64 (10 * v + (c.toNat - 48) : ℕ) := by
  have hlow : 48 ≤ c.toNat := UInt8.le_iff_toNat_le.mp hc.1
  rw [toInt64_mul_add]
  congr 1
  omega

-- Behind the point
theorem atofpLoop_frac (v point : ℕ) (frac : Bytes) :
    atofpLoop (toInt64 v) true point frac =
      if (∀ c ∈ frac, 48 ≤ c ∧ c ≤ 57) ∧ frac.length ≤ point then
        some (toInt64 (digitsValue v frac), point - frac.length)
      else none := by
  induction frac generalizing v point with
  | nil => simp [atofpLoop, digitsValue]
  | cons c frac ih =>
      rw [atofpLoop]
      by_cases hzero : point = 0
      · rw [if_pos hzero, if_neg fun h => absurd h.2 (by rw [hzero]; simp)]
      · rw [if_neg hzero]
        by_cases hdot : c = 46
        · rw [if_pos hdot, if_pos rfl, if_neg fun h => not_digit_dot (hdot ▸ h.1 c List.mem_cons_self)]
        · rw [if_neg hdot]
          by_cases hdigit : 48 ≤ c ∧ c ≤ 57
          · have hlength : frac.length ≤ point - 1 ↔ (c :: frac).length ≤ point := by
              rw [List.length_cons]
              omega
            have hrest : point - 1 - frac.length = point - (c :: frac).length := by
              rw [List.length_cons]
              omega
            rw [if_neg fun h => (outside_iff c).mp h hdigit, if_pos rfl, toInt64_digit v hdigit, ih, hrest]
            refine if_congr (and_congr ?_ hlength) rfl rfl
            rw [List.forall_mem_cons]
            exact (and_iff_right hdigit).symm
          · rw [if_pos ((outside_iff c).mpr hdigit), if_neg fun h => hdigit (h.1 c List.mem_cons_self)]

theorem atofpLoop_eq (v : ℕ) (text : Bytes) :
    atofpLoop (toInt64 v) false 2 text =
      if (∀ c ∈ text.takeWhile (· ≠ 46) ++ (text.dropWhile (· ≠ 46)).drop 1, 48 ≤ c ∧ c ≤ 57) ∧
          ((text.dropWhile (· ≠ 46)).drop 1).length ≤ 2 then
        some (toInt64 (digitsValue v (text.takeWhile (· ≠ 46) ++ (text.dropWhile (· ≠ 46)).drop 1)),
          2 - ((text.dropWhile (· ≠ 46)).drop 1).length)
      else none := by
  induction text generalizing v with
  | nil => simp [atofpLoop, digitsValue]
  | cons c text ih =>
      rw [atofpLoop, if_neg (by decide)]
      by_cases hdot : c = 46
      · have htake : (c :: text).takeWhile (· ≠ 46) = [] := by simp [hdot]
        have hdrop : (c :: text).dropWhile (· ≠ 46) = c :: text := by simp [hdot]
        rw [if_pos hdot, if_neg (by decide), htake, hdrop, List.drop_one, List.tail_cons, List.nil_append]
        exact atofpLoop_frac v 2 text
      · have htake : (c :: text).takeWhile (· ≠ 46) = c :: text.takeWhile (· ≠ 46) := by simp [hdot]
        have hdrop : (c :: text).dropWhile (· ≠ 46) = text.dropWhile (· ≠ 46) := by simp [hdot]
        rw [if_neg hdot, htake, hdrop, List.cons_append]
        by_cases hdigit : 48 ≤ c ∧ c ≤ 57
        · rw [if_neg fun h => (outside_iff c).mp h hdigit, if_neg (by decide), toInt64_digit v hdigit, ih]
          refine if_congr (and_congr_left' ?_) rfl rfl
          rw [List.forall_mem_cons]
          exact (and_iff_right hdigit).symm
        · rw [if_pos ((outside_iff c).mpr hdigit), if_neg fun h => hdigit (h.1 c List.mem_cons_self)]

theorem scale_eq (v point : ℕ) : scale (toInt64 v) point = toInt64 (v * 10 ^ point : ℕ) := by
  induction point generalizing v with
  | zero => rw [scale, Nat.pow_zero, Nat.mul_one]
  | succ point ih =>
      have hstep : toInt64 (toInt64 v * 10) = toInt64 (v * 10 : ℕ) := by
        have hzero := toInt64_mul_add v 10 0
        simpa using hzero
      rw [scale, hstep, ih, Nat.mul_assoc, Nat.pow_succ, Nat.mul_comm 10]

-- ngx_atofp reads the hundredths, in 64 bits.
theorem atofp_eq (text : Bytes) :
    atofp text 2 =
      match hundredths text with
      | none => -1
      | some p => if toInt64 p < 0 then -1 else toInt64 p := by
  have hloop := atofpLoop_eq 0 text
  have hzero : toInt64 (0 : ℕ) = 0 := by decide
  rw [hzero] at hloop
  rw [atofp, hundredths]
  by_cases hempty : text = []
  · rw [if_pos hempty, if_neg fun h => h.1 hempty]
  · rw [if_neg hempty, hloop]
    by_cases hdigits : (∀ c ∈ text.takeWhile (· ≠ 46) ++ (text.dropWhile (· ≠ 46)).drop 1, 48 ≤ c ∧ c ≤ 57) ∧
        ((text.dropWhile (· ≠ 46)).drop 1).length ≤ 2
    · rw [if_pos hdigits, if_pos ⟨hempty, hdigits⟩]
      dsimp only
      rw [scale_eq]
    · rw [if_neg hdigits, if_neg fun h => hdigits h.2]

variable {lines : List (Bytes × Bytes)} {line : Bytes × Bytes} {part : Part} {raw parts : List Part} {sum last hash i : ℕ}

-- What a block has to do
structure Splits (lines : List (Bytes × Bytes)) (parts : List Part) : Prop where
  sorted : (parts.map (·.percent)).Pairwise (· ≤ ·)
  share : ∀ i line p, lines[i]? = some line → percentage line = some p →
    ∃ low, low + p * (0xffffffff / 10000) ≤ 2 ^ 32 ∧
      ∀ hash < 2 ^ 32, chosen parts hash = some i ↔ low ≤ hash ∧ hash < low + p * (0xffffffff / 10000)
  ordered : ∀ i j hash hash', chosen parts hash = some i → chosen parts hash' = some j → i < j → hash < hash'
  total : lines.getLast?.map (·.1) = some [42] ∨ (lines.filterMap percentage).sum = 10000 →
    ∀ hash < 2 ^ 32, splitClientsVariable parts hash ≠ none

theorem splitClients_spec (h : splitClients line = some part) :
    (line.1 = [42] ∧ percentage line = none ∧ part.percent = 0) ∨
      ∃ p, percentage line = some p ∧ (p < 2 ^ 32 → part.percent = p ∧ p ≠ 0) := by
  rw [splitClients] at h
  by_cases hstar : line.1 = [42]
  · rw [if_pos hstar] at h
    cases h
    exact .inl ⟨hstar, by rw [percentage, if_pos hstar], rfl⟩
  · rw [if_neg hstar] at h
    by_cases hsign : line.1.getLast? ≠ some 37
    · rw [if_pos hsign] at h
      cases h
    · rw [if_neg hsign] at h
      dsimp only at h
      split at h
      · cases h
      · rename_i hvalue
        rw [not_or] at hvalue
        right
        rw [percentage, if_neg hstar]
        have hread := atofp_eq line.1.dropLast
        cases hshown : hundredths line.1.dropLast with
        | none =>
            rw [hshown] at hread
            exact absurd hread hvalue.1
        | some p =>
            rw [hshown] at hread
            dsimp only at hread
            refine ⟨p, rfl, fun hsmall => ?_⟩
            rw [toInt64_of_range p (by omega) (by omega), if_neg (by omega)] at hread
            cases h
            rw [hread] at hvalue ⊢
            dsimp only
            omega

theorem parsed_spec (h : lines.mapM splitClients = some raw) :
    List.Forall₂ (fun line part => splitClients line = some part) lines raw := by
  induction lines generalizing raw with
  | nil =>
      cases h
      exact .nil
  | cons line lines ih =>
      rw [List.mapM_cons] at h
      obtain ⟨part, hpart, h⟩ := Option.bind_eq_some_iff.mp h
      obtain ⟨raw', hraw, h⟩ := Option.bind_eq_some_iff.mp h
      cases h
      exact .cons hpart (ih hraw)

-- What one turn of the loop does
theorem thresholds_cons (h : thresholds sum last (part :: raw) = some parts) :
    ∃ sum' percent parts', thresholds sum' percent raw = some parts' ∧ parts = { part with percent } :: parts' ∧
      (part.percent = 0 ∧ sum' = 10000 ∧ percent = 0xffffffff ∨
        part.percent ≠ 0 ∧ sum' = sum + part.percent ∧ sum' ≤ 10000 ∧
          percent = (last + 0xffffffff / 10000 * part.percent % 2 ^ 32) % 2 ^ 32) := by
  rw [thresholds] at h
  by_cases hzero : part.percent = 0
  · rw [if_neg (not_not.mpr hzero), if_neg (not_not.mpr hzero)] at h
    dsimp only at h
    rw [if_neg (Nat.lt_irrefl _)] at h
    obtain ⟨parts', hparts, rfl⟩ := Option.map_eq_some_iff.mp h
    exact ⟨_, _, parts', hparts, rfl, .inl ⟨hzero, rfl, rfl⟩⟩
  · rw [if_pos hzero, if_pos hzero] at h
    dsimp only at h
    by_cases hsum : 10000 < sum + part.percent
    · rw [if_pos hsum] at h
      cases h
    · rw [if_neg hsum] at h
      obtain ⟨parts', hparts, rfl⟩ := Option.map_eq_some_iff.mp h
      exact ⟨_, _, parts', hparts, rfl, .inr ⟨hzero, rfl, Nat.not_lt.mp hsum, rfl⟩⟩

-- The thresholds are 32-bit numbers, so the last hash value is below none of them.
theorem thresholds_bound (h : thresholds sum last raw = some parts) : ∀ part ∈ parts, part.percent ≤ 0xffffffff := by
  induction raw generalizing sum last parts with
  | nil =>
      cases h
      simp
  | cons part raw ih =>
      obtain ⟨sum', percent, parts', hparts, rfl, hturn⟩ := thresholds_cons h
      refine List.forall_mem_cons.mpr ⟨?_, ih hparts⟩
      dsimp only
      omega

theorem last_hash_not_chosen (h : thresholds sum last raw = some parts) :
    splitClientsVariable parts 0xffffffff = none := by
  have hnone : chosen parts 0xffffffff = none := by
    rw [chosen, List.findIdx?_eq_none_iff]
    intro part hpart
    have hbound := thresholds_bound h part hpart
    simpa using hbound
  rw [splitClientsVariable, hnone]
  rfl

-- Behind a '*' there is nothing but that.
theorem thresholds_full (h : thresholds 10000 last raw = some parts) : ∀ part ∈ raw, part.percent = 0 := by
  induction raw generalizing last parts with
  | nil => simp
  | cons part raw ih =>
      obtain ⟨sum', percent, parts', hparts, -, ⟨hzero, rfl, -⟩ | ⟨hne, rfl, hsum, -⟩⟩ := thresholds_cons h
      · exact List.forall_mem_cons.mpr ⟨hzero, ih hparts⟩
      · omega

theorem last_of_zero (h : thresholds sum last raw = some parts) (hzero : ∃ part ∈ raw, part.percent = 0) :
    ∃ part, raw.getLast? = some part ∧ part.percent = 0 := by
  induction raw generalizing sum last parts with
  | nil => simp at hzero
  | cons part raw ih =>
      obtain ⟨sum', percent, parts', hparts, -, hturn⟩ := thresholds_cons h
      by_cases hrest : ∃ part ∈ raw, part.percent = 0
      · obtain ⟨q, hq, hqzero⟩ := ih hparts hrest
        exact ⟨q, by rw [List.getLast?_cons, hq]; rfl, hqzero⟩
      · have hhere : part.percent = 0 := by
          obtain ⟨q, hq, hqzero⟩ := hzero
          rcases List.mem_cons.mp hq with rfl | hq
          · exact hqzero
          · exact (hrest ⟨q, hq, hqzero⟩).elim
        rcases hturn with ⟨-, rfl, -⟩ | ⟨hne, -⟩
        · have hall := thresholds_full hparts
          cases raw with
          | nil => exact ⟨part, rfl, hhere⟩
          | cons q raw => exact (hrest ⟨q, List.mem_cons_self, hall q List.mem_cons_self⟩).elim
        · exact (hne hhere).elim

-- Without a '*' the thresholds are the running sums.
theorem thresholds_running (sum : Nat) (hpos : ∀ part ∈ raw, part.percent ≠ 0)
    (h : thresholds sum (sum * 429496) raw = some parts) :
    parts.length = raw.length ∧ ∀ i, i < raw.length →
      sum + ((raw.take (i + 1)).map (·.percent)).sum ≤ 10000 ∧
      (parts.map (·.percent))[i]? = some ((sum + ((raw.take (i + 1)).map (·.percent)).sum) * 429496) := by
  induction raw generalizing sum parts with
  | nil =>
      cases h
      exact ⟨rfl, fun i hi => absurd hi (Nat.not_lt_zero i)⟩
  | cons part raw ih =>
      obtain ⟨hpart, hraw⟩ := List.forall_mem_cons.mp hpos
      obtain ⟨sum', percent, parts', hparts, rfl, ⟨hzero, -⟩ | ⟨-, rfl, hsum, hpercent⟩⟩ := thresholds_cons h
      · exact (hpart hzero).elim
      · have hthreshold : percent = (sum + part.percent) * 429496 := by omega
        subst hthreshold
        obtain ⟨hlength, hrest⟩ := ih _ hraw hparts
        refine ⟨by rw [List.length_cons, List.length_cons, hlength], fun i hi => ?_⟩
        cases i with
        | zero => simpa using hsum
        | succ i =>
            obtain ⟨hbound, hget⟩ := hrest i (by simpa using hi)
            rw [List.take_succ_cons, List.map_cons, List.sum_cons, ← Nat.add_assoc, List.map_cons,
              List.getElem?_cons_succ]
            exact ⟨hbound, hget⟩

-- The hundredths of the parts in front of one
def before (raw : List Part) (i : ℕ) : ℕ := ((raw.take i).map (·.percent)).sum

theorem before_succ (hpart : raw[i]? = some part) : before raw (i + 1) = before raw i + part.percent := by
  rw [before, before, List.take_add_one, hpart, List.map_append, List.sum_append]
  simp

theorem before_le (raw : List Part) {i j : ℕ} (hij : i ≤ j) : before raw i ≤ before raw j := by
  have htake : raw.take j = raw.take i ++ (raw.drop i).take (j - i) := by
    rw [← List.take_add]
    congr 1
    omega
  rw [before, before, htake, List.map_append, List.sum_append]
  exact Nat.le_add_right _ _

-- Each part takes the hash values from the threshold in front of it to its own.
theorem chosen_running (hpos : ∀ part ∈ raw, part.percent ≠ 0) (h : thresholds 0 0 raw = some parts) :
    chosen parts hash = some i ↔ i < raw.length ∧ before raw i * 429496 ≤ hash ∧ hash < before raw (i + 1) * 429496 := by
  obtain ⟨hlength, hget⟩ := thresholds_running 0 hpos (by rw [Nat.zero_mul]; exact h)
  have hpercent : ∀ j (hj : j < parts.length), parts[j].percent = before raw (j + 1) * 429496 := fun j hj => by
    obtain ⟨-, hpart⟩ := hget j (by omega)
    rw [List.getElem?_map, List.getElem?_eq_getElem hj, Option.map_some, Option.some.injEq, Nat.zero_add] at hpart
    exact hpart
  rw [chosen, List.findIdx?_eq_some_iff_getElem]
  simp only [decide_eq_true_eq]
  constructor
  · rintro ⟨hi, hbelow, hnot⟩
    rw [hpercent i hi] at hbelow
    refine ⟨by omega, ?_, hbelow⟩
    cases i with
    | zero => simp [before]
    | succ i =>
        have hprevious := hnot i (Nat.lt_succ_self i)
        rw [hpercent i (by omega)] at hprevious
        exact Nat.not_lt.mp hprevious
  · rintro ⟨hi, habove, hbelow⟩
    refine ⟨by omega, by rw [hpercent i (by omega)]; exact hbelow, fun j hji => ?_⟩
    rw [hpercent j (by omega)]
    have hle : before raw (j + 1) ≤ before raw i := before_le raw hji
    omega

theorem get_of_forall {R : Bytes × Bytes → Part → Prop} (h : List.Forall₂ R lines raw) (hline : lines[i]? = some line) :
    ∃ part, raw[i]? = some part ∧ R line part := by
  induction h generalizing i with
  | nil => simp at hline
  | @cons line' part lines raw hhere _ ih =>
      cases i with
      | zero =>
          cases hline
          exact ⟨part, rfl, hhere⟩
      | succ i => exact ih hline

theorem no_star (hparsed : List.Forall₂ (fun line part => splitClients line = some part) lines raw)
    (hthresholds : thresholds 0 0 raw = some parts) (hlast : lines.getLast?.map (·.1) ≠ some [42])
    (hsmall : ∀ p ∈ lines.filterMap percentage, p < 2 ^ 32) : ∀ part ∈ raw, part.percent ≠ 0 := by
  intro part hpart hzero
  obtain ⟨q, hq, hqzero⟩ := last_of_zero hthresholds ⟨part, hpart, hzero⟩
  have hlength := hparsed.length_eq
  rw [List.getLast?_eq_getElem?, ← hlength] at hq
  have hbound : lines.length - 1 < lines.length := by
    have hne := List.length_pos_of_mem hpart
    omega
  obtain ⟨q', hq', hread⟩ := get_of_forall hparsed (List.getElem?_eq_getElem hbound)
  rw [hq] at hq'
  cases hq'
  rcases splitClients_spec hread with ⟨hstar, -⟩ | ⟨p, hp, hvalue⟩
  · refine hlast ?_
    rw [List.getLast?_eq_getElem?, List.getElem?_eq_getElem hbound, Option.map_some, hstar]
  · have hin : p ∈ lines.filterMap percentage := List.mem_filterMap.mpr ⟨_, List.getElem_mem hbound, hp⟩
    obtain ⟨hsame, hne⟩ := hvalue (hsmall p hin)
    exact hne (hsame ▸ hqzero)

theorem splits_iff (h : block lines = some parts) :
    Splits lines parts ↔
      lines.getLast?.map (·.1) ≠ some [42] ∧ (lines.filterMap percentage).sum ≠ 10000 ∧
        ∀ p ∈ lines.filterMap percentage, p < 2 ^ 32 := by
  rw [block] at h
  cases hraw : lines.mapM splitClients with
  | none =>
      rw [hraw] at h
      cases h
  | some raw =>
      rw [hraw] at h
      have hthresholds : thresholds 0 0 raw = some parts := h
      have hparsed := parsed_spec hraw
      constructor
      · rintro ⟨-, hshare, -, htotal⟩
        have hlost := last_hash_not_chosen hthresholds
        refine ⟨fun hstar => ?_, fun hsum => ?_, fun p hp => ?_⟩
        · exact htotal (.inl hstar) _ (by decide) hlost
        · exact htotal (.inr hsum) _ (by decide) hlost
        · obtain ⟨line, hline, hshown⟩ := List.mem_filterMap.mp hp
          obtain ⟨i, hi⟩ := List.mem_iff_getElem?.mp hline
          obtain ⟨low, hroom, -⟩ := hshare i line p hi hshown
          omega
      · rintro ⟨hlast, hsum, hsmall⟩
        have hpos := no_star hparsed hthresholds hlast hsmall
        obtain ⟨hlength, hget⟩ := thresholds_running 0 hpos (by rw [Nat.zero_mul]; exact hthresholds)
        constructor
        case sorted =>
          rw [List.pairwise_iff_getElem]
          intro i j hi hj hij
          have hfirst := (hget i (by simpa [hlength] using hi)).2
          have hsecond := (hget j (by simpa [hlength] using hj)).2
          rw [List.getElem?_eq_getElem hi, Option.some.injEq, Nat.zero_add] at hfirst
          rw [List.getElem?_eq_getElem hj, Option.some.injEq, Nat.zero_add] at hsecond
          rw [hfirst, hsecond]
          exact Nat.mul_le_mul_right _ (before_le raw (by omega))
        case share =>
          intro i line p hline hshown
          obtain ⟨part, hpart, hread⟩ := get_of_forall hparsed hline
          have hin : p ∈ lines.filterMap percentage := List.mem_filterMap.mpr ⟨line, List.mem_of_getElem? hline, hshown⟩
          have hvalue : part.percent = p := by
            rcases splitClients_spec hread with ⟨-, hnone, -⟩ | ⟨p', hp', hvalue⟩
            · rw [hnone] at hshown
              cases hshown
            · rw [hp'] at hshown
              cases hshown
              exact (hvalue (hsmall p hin)).1
          have hi : i < raw.length := (List.getElem?_eq_some_iff.mp hpart).1
          have hnext := before_succ hpart
          have hbound := (hget i hi).1
          rw [Nat.zero_add] at hbound
          change before raw (i + 1) ≤ 10000 at hbound
          refine ⟨before raw i * 429496, by omega, fun hash _ => ?_⟩
          rw [chosen_running hpos hthresholds, hnext, hvalue]
          omega
        case ordered =>
          intro i j hash hash' hchosen hchosen' hij
          obtain ⟨-, -, hbelow⟩ := (chosen_running hpos hthresholds).mp hchosen
          obtain ⟨-, habove, -⟩ := (chosen_running hpos hthresholds).mp hchosen'
          have hle : before raw (i + 1) ≤ before raw j := before_le raw hij
          omega
        case total =>
          rintro (hstar | hfull)
          · exact (hlast hstar).elim
          · exact (hsum hfull).elim

-- 0.5% and 20.25%, without a rest
def quarters : List (Bytes × Bytes) := [(ngxString "0.5%", ngxString "one"), (ngxString "20.25%", ngxString "two")]

theorem splits_quarters : Splits quarters [⟨50 * 429496, ngxString "one"⟩, ⟨2075 * 429496, ngxString "two"⟩] :=
  (splits_iff (by decide)).mpr (by decide +kernel)

-- With '*' the hash value 2^32 - 1 is left over; of 42949673% four hundredths are kept.
theorem rest_not_split :
    block [(ngxString "*", ngxString "one")] = some [⟨0xffffffff, ngxString "one"⟩] ∧
      ¬Splits [(ngxString "*", ngxString "one")] [⟨0xffffffff, ngxString "one"⟩] ∧
      block [(ngxString "42949673%", ngxString "one")] = some [⟨4 * 429496, ngxString "one"⟩] ∧
      ¬Splits [(ngxString "42949673%", ngxString "one")] [⟨4 * 429496, ngxString "one"⟩] := by
  refine ⟨by decide, fun h => ?_, by decide, fun h => ?_⟩
  · exact h.total (.inl (by decide)) 0xffffffff (by decide) (by decide +kernel)
  · have hshown : percentage (ngxString "42949673%", ngxString "one") = some 4294967300 := by decide +kernel
    obtain ⟨low, hroom, -⟩ := h.share 0 _ 4294967300 rfl hshown
    omega

end Nginx.SplitClients
