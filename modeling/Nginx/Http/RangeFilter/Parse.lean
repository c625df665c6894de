import Nginx.Http.RangeFilter

namespace Nginx.RangeFilter

theorem isDigit_iff (c : UInt8) : isDigit c = true ↔ 48 ≤ c.toNat ∧ c.toNat ≤ 57 := by
  simp [isDigit, UInt8.le_iff_toNat_le]

theorem number_eq (m : Nat) (p : Bytes) : number (toInt64 m) p =
    (toInt64 ((p.takeWhile isDigit).foldl (fun n c => n * 10 + (c.toNat - 48)) m : Nat), p.dropWhile isDigit) := by
  induction p generalizing m with
  | nil => rfl
  | cons c p ih =>
      by_cases hc : isDigit c = true
      · have hdigit := (isDigit_iff c).mp hc
        have hstep : toInt64 (toInt64 m * 10 + c.toNat - 48) = toInt64 ((m * 10 + (c.toNat - 48) : Nat) : Int) := by
          unfold toInt64
          rw [Int.bmod_def, Int.bmod_def, Int.bmod_def]
          split <;> split <;> split <;> omega
        rw [number, if_pos hc, hstep, ih, List.takeWhile_cons_of_pos hc, List.dropWhile_cons_of_pos hc, List.foldl_cons]
      · rw [number, if_neg hc, List.takeWhile_cons_of_neg hc, List.dropWhile_cons_of_neg hc, List.foldl_nil]

theorem number_zero (p : Bytes) :
    number 0 p = (toInt64 (value (p.takeWhile isDigit)), p.dropWhile isDigit) := number_eq 0 p

-- The parser with unbounded numbers.
def scanEnd (spec : Nat → Spec) (p : Bytes) : Option (Spec × Bytes) :=
  if !isDigit (peek p) then none
  else
    let n := value (p.takeWhile isDigit)
    let p := skipSpaces (p.dropWhile isDigit)
    if peek p ≠ 44 ∧ peek p ≠ 0 then none else some (spec n, p)

def scan (p : Bytes) : Option (Spec × Bytes) :=
  let p := skipSpaces p
  if peek p ≠ 45 then
    if !isDigit (peek p) then none
    else
      let n := value (p.takeWhile isDigit)
      let p := skipSpaces (p.dropWhile isDigit)
      if peek p ≠ 45 then none
      else
        let p := skipSpaces p.tail
        if peek p = 44 ∨ peek p = 0 then some (.since n, p) else scanEnd (.between n) p
  else scanEnd .suffix p.tail

-- The range that 64-bit numbers give.
def Spec.read (len : Int) : Spec → Range
  | .between a b => ⟨toInt64 a, if toInt64 b ≥ len then len else toInt64 b + 1⟩
  | .since a => ⟨toInt64 a, len⟩
  | .suffix n => ⟨toInt64 (len - toInt64 n), len⟩

theorem parseEnd_eq_between (len : Int) (a : Nat) (p : Bytes) :
    parseEnd len false (toInt64 a) p = (scanEnd (.between a) p).map fun x => (x.1.read len, x.2) := by
  simp only [parseEnd, scanEnd, number_zero]
  split
  · rfl
  · split
    · rfl
    · simp only [Bool.false_eq_true, if_false, Option.map_some, Spec.read]

theorem parseEnd_eq_suffix (len : Int) (p : Bytes) :
    parseEnd len true 0 p = (scanEnd .suffix p).map fun x => (x.1.read len, x.2) := by
  simp only [parseEnd, scanEnd, number_zero]
  split
  · rfl
  · split
    · rfl
    · have hlast : ¬(len - 1 ≥ len) := by omega
      simp only [if_true, if_neg hlast, Int.sub_add_cancel, Option.map_some, Spec.read]

theorem parseSpec_eq (len : Int) (p : Bytes) :
    parseSpec len p = (scan p).map fun x => (x.1.read len, x.2) := by
  simp only [parseSpec, scan, number_zero, parseEnd_eq_between, parseEnd_eq_suffix]
  split
  · split
    · rfl
    · split
      · rfl
      · split <;> rfl
  · rfl

theorem blank_takeWhile (p : Bytes) : Blank (p.takeWhile (· = 32)) := by
  intro c hc
  simpa using List.mem_takeWhile_imp hc

theorem skipSpaces_split (p : Bytes) : p = p.takeWhile (· = 32) ++ skipSpaces p :=
  List.takeWhile_append_dropWhile.symm

theorem numeral_takeWhile {p : Bytes} (h : isDigit (peek p) = true) :
    Numeral (p.takeWhile isDigit) (value (p.takeWhile isDigit)) := by
  refine ⟨?_, fun c hc => List.mem_takeWhile_imp hc, rfl⟩
  cases p with
  | nil => exact absurd h (by decide)
  | cons c p =>
      have hc : isDigit c = true := h
      rw [List.takeWhile_cons_of_pos hc]
      exact List.cons_ne_nil _ _

theorem digits_split (p : Bytes) : p = p.takeWhile isDigit ++ p.dropWhile isDigit :=
  List.takeWhile_append_dropWhile.symm

theorem peek_split {p : Bytes} {c : UInt8} (h : peek p = c) (hc : c ≠ 0) : p = c :: p.tail := by
  cases p with
  | nil => exact absurd h.symm hc
  | cons d p =>
      rw [← h]
      rfl

def Ends (rest : Bytes) : Prop := peek rest = 44 ∨ peek rest = 0

theorem scanEnd_denotes {spec : Nat → Spec} {p rest : Bytes} {s : Spec} (h : scanEnd spec p = some (s, rest)) :
    ∃ b s₄ n, p = b ++ (s₄ ++ rest) ∧ Numeral b n ∧ Blank s₄ ∧ s = spec n ∧ Ends rest := by
  unfold scanEnd at h
  split at h
  · cases h
  · rename_i hdigit
    simp only [Bool.not_eq_true', Bool.not_eq_false] at hdigit
    simp only at h
    split at h
    · cases h
    · rename_i hend
      simp only [Option.some.injEq, Prod.mk.injEq] at h
      obtain ⟨rfl, rfl⟩ := h
      refine ⟨_, _, _, ?_, numeral_takeWhile hdigit, blank_takeWhile (p.dropWhile isDigit), rfl, ?_⟩
      · rw [← skipSpaces_split, ← digits_split]
      · unfold Ends
        tauto

theorem scan_denotes {p rest : Bytes} {s : Spec} (h : scan p = some (s, rest)) :
    ∃ f, p = f ++ rest ∧ Denotes f s ∧ Ends rest := by
  have hp := skipSpaces_split p
  have hblank := blank_takeWhile p
  unfold scan at h
  simp only at h
  split at h
  · split at h
    · cases h
    · rename_i hminus hdigit
      simp only [Bool.not_eq_true', Bool.not_eq_false] at hdigit
      have hdigits := digits_split (skipSpaces p)
      have hnum := numeral_takeWhile hdigit
      have hafter := skipSpaces_split ((skipSpaces p).dropWhile isDigit)
      have hblank₂ := blank_takeWhile ((skipSpaces p).dropWhile isDigit)
      split at h
      · cases h
      · rename_i hdash
        rw [ne_eq, not_not] at hdash
        have htail := peek_split hdash (by decide)
        have hlast := skipSpaces_split (skipSpaces ((skipSpaces p).dropWhile isDigit)).tail
        have hblank₃ := blank_takeWhile (skipSpaces ((skipSpaces p).dropWhile isDigit)).tail
        split at h
        · rename_i hend
          simp only [Option.some.injEq, Prod.mk.injEq] at h
          obtain ⟨rfl, rfl⟩ := h
          refine ⟨_, ?_, .since hblank hnum hblank₂ hblank₃, hend⟩
          simp only [List.append_assoc, List.cons_append]
          rw [← hlast, ← htail, ← hafter, ← hdigits, ← hp]
        · obtain ⟨b, s₄, n, htext, hb, hs₄, rfl, hend⟩ := scanEnd_denotes h
          refine ⟨_, ?_, .between hblank hnum hblank₂ hblank₃ hb hs₄, hend⟩
          simp only [List.append_assoc, List.cons_append]
          rw [← htext, ← hlast, ← htail, ← hafter, ← hdigits, ← hp]
  · rename_i hminus
    rw [ne_eq, not_not] at hminus
    have htail := peek_split hminus (by decide)
    obtain ⟨b, s₂, n, htext, hb, hs₂, rfl, hend⟩ := scanEnd_denotes h
    refine ⟨_, ?_, .suffix hblank hb hs₂, hend⟩
    simp only [List.append_assoc, List.cons_append]
    rw [← htext, ← htail, ← hp]

theorem skipSpaces_append {s q : Bytes} (hs : Blank s) (hq : peek q ≠ 32) : skipSpaces (s ++ q) = q := by
  induction s with
  | nil =>
      cases q with
      | nil => rfl
      | cons c q =>
          have hc : c ≠ 32 := hq
          simp [skipSpaces, hc]
  | cons c s ih =>
      have hc : c = 32 := hs c (by simp)
      simpa [skipSpaces, hc] using ih fun d hd => hs d (by simp [hd])

theorem takeWhile_numeral {b q : Bytes} {n : Nat} (hb : Numeral b n) (hq : isDigit (peek q) = false) :
    (b ++ q).takeWhile isDigit = b ∧ (b ++ q).dropWhile isDigit = q := by
  obtain ⟨-, hall, -⟩ := hb
  have hstop : q.takeWhile isDigit = [] ∧ q.dropWhile isDigit = q := by
    cases q with
    | nil => exact ⟨rfl, rfl⟩
    | cons c q =>
        have hc : isDigit c = false := hq
        simp [hc]
  rw [List.takeWhile_append_of_pos hall, List.dropWhile_append_of_pos hall, hstop.1, hstop.2, List.append_nil]
  exact ⟨rfl, rfl⟩

theorem peek_numeral {b : Bytes} {n : Nat} (hb : Numeral b n) (q : Bytes) : isDigit (peek (b ++ q)) = true := by
  obtain ⟨hne, hall, -⟩ := hb
  cases b with
  | nil => exact absurd rfl hne
  | cons c b => exact hall c (by simp)

theorem peek_blank {s q : Bytes} (hs : Blank s) : peek (s ++ q) = 32 ∨ peek (s ++ q) = peek q := by
  cases s with
  | nil => exact .inr rfl
  | cons c s => exact .inl (hs c (by simp))

theorem digit_ne {c d : UInt8} (hc : isDigit c = true) (hd : isDigit d = false) : c ≠ d := by
  rintro rfl
  rw [hc] at hd
  cases hd

theorem Ends.not_digit {rest : Bytes} (h : Ends rest) : isDigit (peek rest) = false := by
  rcases h with h | h <;> rw [h] <;> decide

theorem Ends.not_space {rest : Bytes} (h : Ends rest) : peek rest ≠ 32 := by
  rcases h with h | h <;> rw [h] <;> decide

theorem scanEnd_numeral (spec : Nat → Spec) {b s₄ rest : Bytes} {n : Nat} (hb : Numeral b n) (hs₄ : Blank s₄)
    (hrest : Ends rest) : scanEnd spec (b ++ (s₄ ++ rest)) = some (spec n, rest) := by
  have hstop : isDigit (peek (s₄ ++ rest)) = false := by
    rcases peek_blank (q := rest) hs₄ with h | h <;> rw [h]
    · decide
    · exact hrest.not_digit
  obtain ⟨htake, hdrop⟩ := takeWhile_numeral hb hstop
  have hend : ¬(peek rest ≠ 44 ∧ peek rest ≠ 0) := by
    unfold Ends at hrest
    tauto
  simp [scanEnd, peek_numeral hb, htake, hdrop, skipSpaces_append hs₄ hrest.not_space, hb.2.2]
  tauto

theorem scan_first {s₁ a s₂ : Bytes} {m : Nat} (hs₁ : Blank s₁) (ha : Numeral a m) (hs₂ : Blank s₂) (q : Bytes) :
    scan (s₁ ++ (a ++ (s₂ ++ 45 :: q))) =
      if peek (skipSpaces q) = 44 ∨ peek (skipSpaces q) = 0 then some (.since m, skipSpaces q)
      else scanEnd (.between m) (skipSpaces q) := by
  have hdigit := peek_numeral ha (s₂ ++ 45 :: q)
  have hstop : isDigit (peek (s₂ ++ 45 :: q)) = false := by
    rcases peek_blank (q := 45 :: q) hs₂ with h | h <;> rw [h] <;> rfl
  obtain ⟨htake, hdrop⟩ := takeWhile_numeral ha hstop
  have hminus : peek (a ++ (s₂ ++ 45 :: q)) ≠ 45 := digit_ne hdigit (by decide)
  have hspace : peek (a ++ (s₂ ++ 45 :: q)) ≠ 32 := digit_ne hdigit (by decide)
  have hafter : skipSpaces (s₂ ++ 45 :: q) = 45 :: q := skipSpaces_append hs₂ (show (45 : UInt8) ≠ 32 by decide)
  have hdash : ¬peek (45 :: q) ≠ 45 := not_not.mpr rfl
  simp only [scan, skipSpaces_append hs₁ hspace, if_pos hminus, hdigit, Bool.not_true, Bool.false_eq_true, if_false,
    htake, hdrop, hafter, if_neg hdash, List.tail_cons, ha.2.2]

theorem denotes_scan {f rest : Bytes} {s : Spec} (h : Denotes f s) (hrest : Ends rest) :
    scan (f ++ rest) = some (s, rest) := by
  cases h with
  | @between s₁ a s₂ s₃ b s₄ m n hs₁ ha hs₂ hs₃ hb hs₄ =>
      have hdigit := peek_numeral hb (s₄ ++ rest)
      have hskip : skipSpaces (s₃ ++ (b ++ (s₄ ++ rest))) = b ++ (s₄ ++ rest) :=
        skipSpaces_append hs₃ (digit_ne hdigit (by decide))
      have hmore : ¬(peek (b ++ (s₄ ++ rest)) = 44 ∨ peek (b ++ (s₄ ++ rest)) = 0) := by
        rw [not_or]
        exact ⟨digit_ne hdigit (by decide), digit_ne hdigit (by decide)⟩
      simp only [List.append_assoc, List.cons_append]
      rw [scan_first hs₁ ha hs₂, hskip, if_neg hmore, scanEnd_numeral _ hb hs₄ hrest]
  | @since s₁ a s₂ s₃ m hs₁ ha hs₂ hs₃ =>
      simp only [List.append_assoc, List.cons_append]
      rw [scan_first hs₁ ha hs₂, skipSpaces_append hs₃ hrest.not_space]
      exact if_pos hrest
  | @suffix s₁ b s₂ n hs₁ hb hs₂ =>
      have hskip : skipSpaces (s₁ ++ 45 :: (b ++ (s₂ ++ rest))) = 45 :: (b ++ (s₂ ++ rest)) :=
        skipSpaces_append hs₁ (show (45 : UInt8) ≠ 32 by decide)
      have hdash : ¬peek (45 :: (b ++ (s₂ ++ rest))) ≠ 45 := not_not.mpr rfl
      simp only [List.append_assoc, List.cons_append, scan, hskip, if_neg hdash, List.tail_cons,
        scanEnd_numeral _ hb hs₂ hrest]

theorem Denotes.length_pos {f : Bytes} {s : Spec} (h : Denotes f s) : 0 < f.length := by
  cases h <;> simp only [List.length_append, List.length_cons] <;> omega

-- The specs of a whole text.
def scanAll : Nat → Bytes → Option (List Spec)
  | 0, _ => none
  | fuel + 1, p =>
      match scan p with
      | none => none
      | some (s, p) => if peek p = 44 then (scanAll fuel p.tail).map (s :: ·) else some [s]

theorem scanAll_header {fuel : Nat} {p : Bytes} {specs : List Spec} (h : scanAll fuel p = some specs) :
    Header p specs := by
  induction fuel generalizing p specs with
  | zero => cases h
  | succ fuel ih =>
      rw [scanAll] at h
      cases hscan : scan p with
      | none =>
          rw [hscan] at h
          cases h
      | some x =>
          obtain ⟨s, rest⟩ := x
          rw [hscan] at h
          obtain ⟨f, rfl, hf, hend⟩ := scan_denotes hscan
          simp only at h
          by_cases hcomma : peek rest = 44
          · rw [if_pos hcomma, Option.map_eq_some_iff] at h
            obtain ⟨specs, hrest, rfl⟩ := h
            rw [peek_split hcomma (by decide)]
            exact .more hf (ih hrest)
          · rw [if_neg hcomma, Option.some.injEq] at h
            subst h
            exact .last hf (hend.resolve_left hcomma)

theorem header_scanAll {p : Bytes} {specs : List Spec} (h : Header p specs) (fuel : Nat) (hfuel : p.length < fuel) :
    scanAll fuel p = some specs := by
  induction h generalizing fuel with
  | last hf hend =>
      obtain ⟨fuel, rfl⟩ : ∃ k, fuel = k + 1 := ⟨fuel - 1, by omega⟩
      rw [scanAll, denotes_scan hf (.inr hend)]
      simp [hend]
  | @more f rest s specs hf hrest ih =>
      obtain ⟨fuel, rfl⟩ : ∃ k, fuel = k + 1 := ⟨fuel - 1, by omega⟩
      simp only [List.length_append, List.length_cons] at hfuel
      rw [scanAll, denotes_scan hf (.inl rfl)]
      have hcomma : peek (44 :: rest) = 44 := rfl
      simp only [hcomma, if_true, List.tail_cons, ih fuel (by omega), Option.map_some]

-- A text has at most one reading.
theorem Header.unique {p : Bytes} {specs specs' : List Spec} (h : Header p specs) (h' : Header p specs') :
    specs = specs' :=
  Option.some.inj ((header_scanAll h (p.length + 1) (Nat.lt_succ_self _)).symm.trans
    (header_scanAll h' (p.length + 1) (Nat.lt_succ_self _)))

end Nginx.RangeFilter
