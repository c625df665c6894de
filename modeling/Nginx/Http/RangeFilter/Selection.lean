import Nginx.Http.RangeFilter.Parse

namespace Nginx.RangeFilter

-- A spec's range in 64-bit arithmetic, where start < end.
def Spec.stored (len : Int) (s : Spec) : Option Range :=
  if (s.read len).start < (s.read len).stop then some (s.read len) else none

variable (push : Nat → Bool)

-- The loop over specs that have been read.
def collect (len : Int) : List Spec → Nat → Int → List Range → Rc × List Range
  | [], _, size, out => (finish len size out, out)
  | s :: specs, ranges, size, out =>
      match s.stored len with
      | none => collect len specs ranges size out
      | some range =>
          if !push out.length then (.error, out)
          else if ranges = 0 then (.declined, out ++ [range])
          else collect len specs (ranges - 1) (toInt64 (size + (range.stop - range.start))) (out ++ [range])

-- One turn of the loop, with the range of a spec.
theorem parseLoop_step {p rest : Bytes} {s : Spec} (hscan : scan p = some (s, rest)) (len : Int) (fuel ranges : Nat)
    (size : Int) (out : List Range) :
    parseLoop push len (fuel + 1) p ranges size out =
      let next ranges size out :=
        if peek rest = 44 then parseLoop push len fuel rest.tail ranges size out
        else some (finish len size out, out)
      match s.stored len with
      | none => next ranges size out
      | some range =>
          if !push out.length then some (.error, out)
          else if ranges = 0 then some (.declined, out ++ [range])
          else next (ranges - 1) (toInt64 (size + (range.stop - range.start))) (out ++ [range]) := by
  rw [parseLoop, parseSpec_eq, hscan, Spec.stored]
  by_cases hlt : (s.read len).start < (s.read len).stop
  · simp only [Option.map_some, if_pos hlt]
  · simp only [Option.map_some, if_neg hlt]

theorem parseLoop_eq {len : Int} {fuel : Nat} {p : Bytes} {specs : List Spec} (h : scanAll fuel p = some specs)
    (ranges : Nat) (size : Int) (out : List Range) :
    parseLoop push len fuel p ranges size out = some (collect push len specs ranges size out) := by
  induction fuel generalizing p specs ranges size out with
  | zero => cases h
  | succ fuel ih =>
      rw [scanAll] at h
      cases hscan : scan p with
      | none =>
          rw [hscan] at h
          cases h
      | some x =>
          obtain ⟨s, rest⟩ := x
          rw [hscan] at h
          simp only at h
          have hnext : ∃ specs', specs = s :: specs' ∧ ∀ ranges size out,
              (if peek rest = 44 then parseLoop push len fuel rest.tail ranges size out
                else some (finish len size out, out)) = some (collect push len specs' ranges size out) := by
            by_cases hcomma : peek rest = 44
            · rw [if_pos hcomma, Option.map_eq_some_iff] at h
              obtain ⟨specs', hrest, rfl⟩ := h
              refine ⟨specs', rfl, fun ranges size out => ?_⟩
              rw [if_pos hcomma, ih hrest]
            · rw [if_neg hcomma, Option.some.injEq] at h
              refine ⟨[], h.symm, fun ranges size out => ?_⟩
              rw [if_neg hcomma, collect]
          obtain ⟨specs', rfl, hnext⟩ := hnext
          rw [parseLoop_step push hscan, collect]
          simp only [hnext]
          cases s.stored len with
          | none => rfl
          | some range =>
              simp only
              split
              · rfl
              · split <;> rfl

-- A text that is no list of specs is never accepted.
theorem parseLoop_none {len : Int} {fuel : Nat} {p : Bytes} (h : scanAll fuel p = none) (hfuel : p.length < fuel)
    (ranges : Nat) (size : Int) (out : List Range) :
    ∃ rc out', parseLoop push len fuel p ranges size out = some (rc, out') ∧ rc ≠ .ok := by
  induction fuel generalizing p ranges size out with
  | zero => omega
  | succ fuel ih =>
      rw [scanAll] at h
      cases hscan : scan p with
      | none => exact ⟨.notSatisfiable, out, by simp [parseLoop, parseSpec_eq, hscan], by decide⟩
      | some x =>
          obtain ⟨s, rest⟩ := x
          rw [hscan] at h
          simp only at h
          by_cases hcomma : peek rest = 44
          · rw [if_pos hcomma, Option.map_eq_none_iff] at h
            obtain ⟨f, rfl, hf, -⟩ := scan_denotes hscan
            have hlen : rest.tail.length < fuel := by
              have hpos := hf.length_pos
              rw [List.length_append] at hfuel
              rw [List.length_tail]
              omega
            rw [parseLoop_step push hscan]
            simp only [hcomma, if_true]
            cases s.stored len with
            | none => exact ih h hlen ranges size out
            | some range =>
                simp only
                split
                · exact ⟨_, _, rfl, by decide⟩
                · split
                  · exact ⟨_, _, rfl, by decide⟩
                  · exact ih h hlen _ _ _
          · rw [if_neg hcomma] at h
            cases h

theorem toInt64_idem (n m : Int) : toInt64 (toInt64 n + m) = toInt64 (n + m) := by
  unfold toInt64
  exact Int.bmod_add_bmod

def Range.sum (out : List Range) : Int := (out.map Range.length).sum

@[simp] theorem Range.sum_nil : Range.sum [] = 0 := rfl

@[simp] theorem Range.sum_cons (r : Range) (out : List Range) : Range.sum (r :: out) = r.length + Range.sum out := by
  simp [Range.sum]

-- What has to hold for the ranges of the specs to be accepted.
structure Accepts (len : Int) (ranges : Nat) (size : Int) (out new : List Range) : Prop where
  nonempty : out ++ new ≠ []
  le_ranges : new.length ≤ ranges
  pushes : ∀ i < new.length, push (out.length + i) = true
  size : toInt64 (size + Range.sum new) ≤ len

theorem collect_ok_iff (len : Int) (specs : List Spec) (ranges : Nat) (n : Int) (out out' : List Range) :
    collect push len specs ranges (toInt64 n) out = (.ok, out') ↔
      out' = out ++ specs.filterMap (Spec.stored len) ∧
        Accepts push len ranges n out (specs.filterMap (Spec.stored len)) := by
  induction specs generalizing ranges n out with
  | nil =>
      have hfinish : finish len (toInt64 n) out = .ok ↔ out ≠ [] ∧ toInt64 n ≤ len := by
        unfold finish
        split
        · rename_i hzero
          simp [List.length_eq_zero_iff.mp hzero]
        · rename_i hzero
          rw [List.length_eq_zero_iff] at hzero
          split <;> simp [hzero] <;> omega
      simp only [collect, List.filterMap_nil, List.append_nil, Prod.mk.injEq, hfinish]
      constructor
      · intro ⟨⟨hne, hsize⟩, heq⟩
        exact ⟨heq.symm, by simpa using hne, by simp, by simp, by simpa using hsize⟩
      · intro ⟨heq, hne, _, _, hsize⟩
        exact ⟨⟨by simpa using hne, by simpa using hsize⟩, heq.symm⟩
  | cons s specs ih =>
      rw [collect]
      cases hs : s.stored len with
      | none =>
          rw [List.filterMap_cons_none hs]
          exact ih ranges n out
      | some range =>
          rw [List.filterMap_cons_some hs]
          simp only [toInt64_idem]
          by_cases hpush : push out.length = true
          · simp only [hpush, Bool.not_true, Bool.false_eq_true, if_false]
            by_cases hzero : ranges = 0
            · rw [if_pos hzero]
              constructor
              · intro h
                cases h
              · intro ⟨_, hacc⟩
                have hle := hacc.le_ranges
                simp only [List.length_cons] at hle
                omega
            · rw [if_neg hzero, ih, List.append_assoc, List.singleton_append]
              refine and_congr_right fun _ => ?_
              constructor
              · intro ⟨hne, hle, hpushes, hsize⟩
                refine ⟨by simp, by simp only [List.length_cons]; omega, fun i hi => ?_, ?_⟩
                · cases i with
                  | zero => exact hpush
                  | succ i =>
                      simp only [List.length_cons] at hi
                      have hnext := hpushes i (by omega)
                      rw [List.length_append, List.length_singleton, Nat.add_right_comm] at hnext
                      exact hnext
                · rw [Range.sum_cons, ← Int.add_assoc]
                  exact hsize
              · intro ⟨hne, hle, hpushes, hsize⟩
                simp only [List.length_cons] at hle hpushes
                refine ⟨by simp, by omega, fun i hi => ?_, ?_⟩
                · have hnext := hpushes (i + 1) (by omega)
                  rw [List.length_append, List.length_singleton, Nat.add_right_comm]
                  exact hnext
                · rw [Range.sum_cons, ← Int.add_assoc] at hsize
                  exact hsize
          · simp only [Bool.not_eq_true] at hpush
            simp only [hpush, Bool.not_false, if_true]
            constructor
            · intro h
              cases h
            · intro ⟨_, hacc⟩
              have hfirst := hacc.pushes 0 (by simp)
              rw [Nat.add_zero, hpush] at hfirst
              cases hfirst

theorem parse_ok_iff (text : Bytes) (len : Int) (ranges : Nat) (out : List Range) :
    parse push text len ranges = some (.ok, out) ↔
      ∃ specs, Header (text.drop 6) specs ∧ out = specs.filterMap (Spec.stored len) ∧
        Accepts push len ranges 0 [] out := by
  have hfuel : (text.drop 6).length < text.length + 1 := by
    rw [List.length_drop]
    omega
  unfold parse
  cases hscan : scanAll (text.length + 1) (text.drop 6) with
  | none =>
      obtain ⟨rc, out', hrun, hrc⟩ := parseLoop_none push hscan hfuel ranges 0 []
      constructor
      · intro h
        rw [hrun] at h
        cases h
        exact absurd rfl hrc
      · intro ⟨specs, hheader, _⟩
        rw [header_scanAll hheader _ hfuel] at hscan
        cases hscan
  | some specs =>
      have hcollect := collect_ok_iff push len specs ranges 0 [] out
      rw [parseLoop_eq push hscan, Option.some.injEq]
      rw [show toInt64 0 = 0 from rfl, List.nil_append] at hcollect
      rw [hcollect]
      constructor
      · intro ⟨heq, hacc⟩
        exact ⟨specs, scanAll_header hscan, heq, heq ▸ hacc⟩
      · intro ⟨specs', hheader, heq, hacc⟩
        rw [header_scanAll hheader _ hfuel, Option.some.injEq] at hscan
        subst hscan
        exact ⟨heq, heq ▸ hacc⟩

theorem select_bounds {len : Int} {s : Spec} {r : Range} (h : s.select len = some r) :
    0 ≤ r.start ∧ r.start < r.stop ∧ r.stop ≤ len := by
  cases s with
  | between a b =>
      simp only [Spec.select] at h
      split at h
      · cases h
        rename_i hlt
        exact ⟨Int.natCast_nonneg a, hlt, Int.min_le_right _ _⟩
      · cases h
  | since a =>
      simp only [Spec.select] at h
      split at h
      · cases h
        rename_i hlt
        exact ⟨Int.natCast_nonneg a, hlt, Int.le_refl len⟩
      · cases h
  | suffix n =>
      simp only [Spec.select] at h
      split at h
      · cases h
        simp only
        omega
      · cases h

-- The headers for which the 64-bit arithmetic goes wrong are those where it rejects nothing and either gives
-- other ranges than unbounded numbers do or loses a multiple of 2^64 of their lengths.
def Meets (text : Bytes) (len : Int) (ranges : Nat) : Prop :=
  ∀ specs, Header (text.drop 6) specs →
    let out := specs.filterMap (Spec.stored len)
    (out = [] ∨ ranges < out.length ∨ (∃ i < out.length, push i = false) ∨ len < toInt64 (Range.sum out)) ∨
      out = specs.filterMap (Spec.select len) ∧ Range.sum out ≤ len

-- The numbers that 64-bit arithmetic reads well.
def Spec.Fits (len : Int) : Spec → Prop
  | .between a b => a < 2 ^ 63 ∧ b < 2 ^ 63
  | .since a => a < 2 ^ 63
  | .suffix n => (n : Int) ≤ len

theorem stored_of_fits {len : Int} {s : Spec} (hlen : len < 2 ^ 63) (h : s.Fits len) :
    s.stored len = s.select len := by
  cases s with
  | between a b =>
      obtain ⟨ha, hb⟩ := h
      have hstop : (if (b : Int) ≥ len then len else (b : Int) + 1) = min ((b : Int) + 1) len := by
        split <;> omega
      simp only [Spec.stored, Spec.read, Spec.select, toInt64_of_range a (by omega) (by omega),
        toInt64_of_range b (by omega) (by omega), hstop]
  | since a =>
      have ha : a < 2 ^ 63 := h
      simp only [Spec.stored, Spec.read, Spec.select, toInt64_of_range a (by omega) (by omega)]
  | suffix n =>
      have hn : (n : Int) ≤ len := h
      have hmax : max (len - n) 0 = len - n := by omega
      simp only [Spec.stored, Spec.read, Spec.select, toInt64_of_range n (by omega) (by omega),
        toInt64_of_range (len - n) (by omega) (by omega), hmax]
      by_cases hpos : 0 < n
      · rw [if_pos (by omega), if_pos (by omega)]
      · rw [if_neg (by omega), if_neg (by omega)]

-- Headers with such numbers whose ranges have less than 2^63 bytes in all.
theorem meets_of_fits {text : Bytes} {len : Int} {specs : List Spec} (hlen : len < 2 ^ 63)
    (hheader : Header (text.drop 6) specs) (hfits : ∀ s ∈ specs, s.Fits len)
    (hsum : Range.sum (specs.filterMap (Spec.select len)) < 2 ^ 63) (ranges : Nat) :
    Meets push text len ranges := by
  intro specs' hheader'
  obtain rfl := hheader'.unique hheader
  have hstored : specs'.filterMap (Spec.stored len) = specs'.filterMap (Spec.select len) :=
    List.filterMap_congr fun s hs => stored_of_fits hlen (hfits s hs)
  have hpos : 0 ≤ Range.sum (specs'.filterMap (Spec.select len)) := by
    refine List.sum_nonneg fun n hn => ?_
    obtain ⟨r, hr, rfl⟩ := List.mem_map.mp hn
    obtain ⟨s, -, hs⟩ := List.mem_filterMap.mp hr
    obtain ⟨-, hlt, -⟩ := select_bounds hs
    unfold Range.length
    omega
  simp only [hstored]
  by_cases hle : Range.sum (specs'.filterMap (Spec.select len)) ≤ len
  · exact .inr ⟨trivial, hle⟩
  · refine .inl (.inr (.inr (.inr ?_)))
    rw [toInt64_of_range _ (by omega) hsum]
    omega

end Nginx.RangeFilter
