import Nginx.Http.ComplexValue.Value

namespace Nginx.ComplexValue

open Script WordMemory

-- The source with each reference replaced: a digit from 1 to 9 behind a '$' is a capture, else the
-- longest run of name characters is a variable, and '{' and '}' may stand around such a run.
inductive Expands (variableIndex : Bytes → Option Nat) (value : Nat → Bytes) (captures : Captures) :
    Bytes → Bytes → Prop
  | nil : Expands variableIndex value captures [] []
  | text {c s out} : c ≠ 36 → Expands variableIndex value captures s out →
      Expands variableIndex value captures (c :: s) (c :: out)
  | capture {c s out} : 49 ≤ c ∧ c ≤ 57 → Expands variableIndex value captures s out →
      Expands variableIndex value captures (36 :: c :: s) (captures.text (c.toNat - 48) ++ out)
  | name {name index s out} : name ≠ [] → (∀ c ∈ name, isName c = true) →
      (∀ c ∈ name.head?, ¬(49 ≤ c ∧ c ≤ 57)) → (∀ c ∈ s.head?, isName c = false) →
      variableIndex name = some index → Expands variableIndex value captures s out →
      Expands variableIndex value captures (36 :: (name ++ s)) (value index ++ out)
  | braces {name index s out} : name ≠ [] → (∀ c ∈ name, isName c = true) →
      variableIndex name = some index → Expands variableIndex value captures s out →
      Expands variableIndex value captures (36 :: 123 :: (name ++ 125 :: s)) (value index ++ out)

section Source

variable {conf : Conf} {value : Nat → Bytes} {captures : Captures}

theorem expands_text (t : Bytes) (ht : ∀ c ∈ t, c ≠ 36) {s out : Bytes}
    (h : Expands conf.variableIndex value captures s out) :
    Expands conf.variableIndex value captures (t ++ s) (t ++ out) := by
  induction t with
  | nil => exact h
  | cons c t ih =>
      exact .text (ht c List.mem_cons_self) (ih fun c hc => ht c (List.mem_cons_of_mem _ hc))

theorem expands_plain {s out : Bytes} (hs : 36 ∉ s)
    (h : Expands conf.variableIndex value captures s out) : out = s := by
  induction h with
  | nil => rfl
  | text _ _ ih => rw [ih fun hmem => hs (List.mem_cons_of_mem _ hmem)]
  | capture _ _ _ => exact absurd List.mem_cons_self hs
  | name _ _ _ _ _ _ _ => exact absurd List.mem_cons_self hs
  | braces _ _ _ _ _ => exact absurd List.mem_cons_self hs

theorem head_dropWhile (p : UInt8 → Bool) (s : Bytes) : ∀ c ∈ (s.dropWhile p).head?, p c = false := by
  intro c hc
  have h := List.head?_dropWhile_not p s
  rw [Option.mem_def.mp hc] at h
  simpa using h

-- The code that a turn adds: the replacement of what it reads, and behind the last text the zero.
structure Turned (conf : Conf) (value : Nat → Bytes) (captures : Captures) (sc sc' : Compile)
    (s rest : Bytes) (code : Code) : Prop where
  codes : sc'.codes = sc.codes ++ [code]
  compileArgs : sc'.compileArgs = sc.compileArgs
  noArgs : code ≠ .startArgs
  replaces : ∃ piece zeros, text value captures code = piece ++ zeros ∧
    (zeros = [] ∧ sc'.zero = sc.zero ∨
      zeros = [0] ∧ sc.zero = true ∧ sc'.zero = false ∧ rest = []) ∧
    ∀ out, Expands conf.variableIndex value captures rest out →
      Expands conf.variableIndex value captures s (piece ++ out)

theorem turned_var {sc sc' : Compile} {name s rest : Bytes} (h : sc.addVar conf name = some sc')
    (hexpands : ∀ index out, conf.variableIndex name = some index →
      Expands conf.variableIndex value captures rest out →
      Expands conf.variableIndex value captures s (value index ++ out)) :
    ∃ code, Turned conf value captures sc sc' s rest code := by
  unfold Compile.addVar at h
  split at h
  · rename_i index hindex
    obtain rfl := Option.some.inj h
    refine ⟨.copyVar index, rfl, rfl, by rintro ⟨⟩, value index, [], (List.append_nil _).symm, .inl ⟨rfl, rfl⟩, ?_⟩
    exact fun out hout => hexpands index out hindex hout
  · cases h

theorem dollar_turned {sc sc' : Compile} {src rest : Bytes} (h : sc.dollar conf src = some (sc', rest)) :
    ∃ code, Turned conf value captures sc sc' (36 :: src) rest code := by
  unfold Compile.dollar at h
  split at h
  · cases h
  · rename_i ch src
    split at h
    · rename_i hdigit
      simp only [Option.some.injEq, Prod.mk.injEq] at h
      obtain ⟨rfl, rfl⟩ := h
      refine ⟨.copyCapture (ch.toNat - 48), rfl, rfl, by rintro ⟨⟩, captures.text (ch.toNat - 48), [],
        (List.append_nil _).symm, .inl ⟨rfl, rfl⟩, ?_⟩
      exact fun out hout => .capture hdigit hout
    · rename_i hdigit
      split at h
      · rename_i hbrace
        subst hbrace
        split at h
        · cases h
        · rename_i rest' hdrop hne
          obtain ⟨sc₁, hvar, heq⟩ := Option.map_eq_some_iff.mp h
          obtain ⟨rfl, rfl⟩ := Prod.mk.inj heq
          apply turned_var hvar
          intro index out hindex hout
          have hsrc : src = src.takeWhile isName ++ 125 :: rest' := by
            rw [← hdrop, List.takeWhile_append_dropWhile]
          rw [hsrc]
          exact .braces hne (fun c hc => List.mem_takeWhile_imp hc) hindex hout
        · cases h
      · split at h
        · cases h
        · rename_i hne
          obtain ⟨sc₁, hvar, heq⟩ := Option.map_eq_some_iff.mp h
          obtain ⟨rfl, rfl⟩ := Prod.mk.inj heq
          apply turned_var hvar
          intro index out hindex hout
          have hsrc := (List.takeWhile_append_dropWhile (p := isName) (l := ch :: src)).symm
          rw [hsrc]
          refine .name hne (fun c hc => List.mem_takeWhile_imp hc) ?_ (head_dropWhile isName _) hindex hout
          intro c hc
          have hhead : c = ch := by
            rw [List.takeWhile_cons] at hc
            split at hc
            · simpa using hc.symm
            · simp at hc
          rw [hhead]
          exact hdigit

theorem text_turned {sc : Compile} (hargs : sc.compileArgs = false) (src : Bytes) :
    ∃ code, Turned conf value captures sc (sc.text src).1 src (sc.text src).2 code := by
  have hin : ∀ c ∈ src.takeWhile sc.inText, c ≠ 36 := by
    intro c hc
    have := List.mem_takeWhile_imp hc
    simpa [Compile.inText, hargs] using this
  have hexpands : ∀ out, Expands conf.variableIndex value captures (src.dropWhile sc.inText) out →
      Expands conf.variableIndex value captures src (src.takeWhile sc.inText ++ out) := by
    intro out hout
    have h := expands_text _ hin hout
    rwa [List.takeWhile_append_dropWhile] at h
  by_cases hzero : (sc.zero && (src.dropWhile sc.inText).isEmpty) = true
  · obtain ⟨hz, hlast⟩ := Bool.and_eq_true_iff.mp hzero
    refine ⟨.copy (src.takeWhile sc.inText ++ [0]), ?_, ?_, by rintro ⟨⟩, src.takeWhile sc.inText, [0], rfl,
      .inr ⟨rfl, hz, ?_, List.isEmpty_iff.mp hlast⟩, hexpands⟩
    · simp [Compile.text, Compile.addCopyCode, hz, hlast, Compile.addCode]
    · simp [Compile.text, Compile.addCopyCode, hz, hlast, Compile.addCode]
    · simp [Compile.text, Compile.addCopyCode, hz, hlast]
  · refine ⟨.copy (src.takeWhile sc.inText), ?_, ?_, by rintro ⟨⟩, src.takeWhile sc.inText, [],
      (List.append_nil _).symm, .inl ⟨rfl, ?_⟩, hexpands⟩
    · simp [Compile.text, Compile.addCopyCode, hzero, Compile.addCode]
    · simp [Compile.text, Compile.addCopyCode, hzero, Compile.addCode]
    · simp [Compile.text, Compile.addCopyCode, hzero, Compile.addCode]

theorem turn_turned (value : Nat → Bytes) (captures : Captures) {sc sc' : Compile} {ch : UInt8} {src rest : Bytes} (hargs : sc.compileArgs = false)
    (h : sc.turn conf ch src = some (sc', rest)) :
    ∃ code, Turned conf value captures sc sc' (ch :: src) rest code := by
  unfold Compile.turn at h
  split at h
  · rename_i hch
    subst hch
    exact dollar_turned h
  · rw [if_neg (by simp [hargs])] at h
    have hpair := Option.some.inj h
    have hsc : (sc.text (ch :: src)).1 = sc' := congrArg Prod.fst hpair
    have hrest : (sc.text (ch :: src)).2 = rest := congrArg Prod.snd hpair
    rw [← hsc, ← hrest]
    exact text_turned hargs _

theorem loop_expands (value : Nat → Bytes) (captures : Captures) (fuel : Nat) (sc sc' : Compile) (src : Bytes) (hargs : sc.compileArgs = false)
    (h : Compile.loop conf fuel sc src = some sc') :
    ∃ codes out zeros, sc'.codes = sc.codes ++ codes ∧ .startArgs ∉ codes ∧
      Expands conf.variableIndex value captures src out ∧
      codes.flatMap (text value captures) = out ++ zeros ∧
      (zeros = [] ∧ sc'.zero = sc.zero ∨ zeros = [0] ∧ sc.zero = true ∧ sc'.zero = false) := by
  induction fuel generalizing sc src with
  | zero =>
      cases src with
      | nil =>
          obtain rfl := Option.some.inj h
          exact ⟨[], [], [], by simp, by simp, .nil, rfl, .inl ⟨rfl, rfl⟩⟩
      | cons ch src => cases h
  | succ fuel ih =>
      cases src with
      | nil =>
          obtain rfl := Option.some.inj h
          exact ⟨[], [], [], by simp, by simp, .nil, rfl, .inl ⟨rfl, rfl⟩⟩
      | cons ch src =>
          rw [Compile.loop] at h
          split at h
          · rename_i sc₁ rest hturn
            obtain ⟨code, ht⟩ := turn_turned value captures hargs hturn
            obtain ⟨codes, out, zeros, hcodes, hno, hexpands, htext, hz⟩ :=
              ih sc₁ rest (ht.compileArgs.trans hargs) h
            obtain ⟨piece, zeros₁, hpiece, hz₁, hwhole⟩ := ht.replaces
            have hall : sc'.codes = sc.codes ++ (code :: codes) := by
              rw [hcodes, ht.codes, List.append_assoc]
              rfl
            have hno' : Code.startArgs ∉ code :: codes := by
              rw [List.mem_cons, not_or]
              exact ⟨fun h => ht.noArgs h.symm, hno⟩
            rcases hz₁ with ⟨rfl, hsame⟩ | ⟨rfl, hon, hoff, rfl⟩
            · refine ⟨code :: codes, piece ++ out, zeros, hall, hno', hwhole out hexpands, ?_, hsame ▸ hz⟩
              rw [List.flatMap_cons, htext, hpiece, List.append_nil, List.append_assoc]
            · -- behind the zero nothing is left of the source
              obtain rfl : sc₁ = sc' := by
                cases fuel <;> exact Option.some.inj h
              obtain rfl : codes = [] := by simpa using hcodes
              refine ⟨[code], piece ++ [], [0], hall, hno', hwhole [] .nil, ?_, .inr ⟨rfl, hon, hoff⟩⟩
              rw [List.flatMap_cons, hpiece, List.flatMap_nil, List.append_nil, List.append_nil]
          · cases h

theorem compile_expands (value : Nat → Bytes) (captures : Captures) {zero : Bool} {v : Bytes} {sc : Compile}
    (h : compile conf ⟨[], 0, 0, 0, false, zero, false, false⟩ v = some sc) :
    ∃ out, .startArgs ∉ sc.codes ∧ Expands conf.variableIndex value captures v out ∧
      sc.codes.flatMap (text value captures) = out ++ if zero then [0] else [] := by
  obtain ⟨sc₁, hloop, rfl⟩ := Option.map_eq_some_iff.mp h
  obtain ⟨codes, out, zeros, hcodes, hno, hexpands, htext, hz⟩ :=
    loop_expands value captures _ _ _ _ rfl hloop
  rw [List.nil_append] at hcodes
  refine ⟨out, ?_, hexpands, ?_⟩
  · unfold Compile.done
    split
    · simp [Compile.addCopyCode, Compile.addCode, hcodes, hno]
    · rwa [hcodes]
  · rcases hz with ⟨rfl, hsame⟩ | ⟨rfl, hon, hoff⟩
    · have hzero : sc₁.zero = zero := hsame
      cases zero with
      | true =>
          simp only [Compile.done, hzero, if_true, Compile.addCopyCode, Bool.and_false,
            Bool.false_eq_true, if_false, Compile.addCode, hcodes, List.flatMap_append, htext]
          simp [text]
      | false =>
          simp only [Compile.done, hzero, Bool.false_eq_true, if_false, hcodes, htext]
    · have hzero : zero = true := hon
      simp only [Compile.done, hoff, Bool.false_eq_true, if_false, hcodes, htext, hzero, if_true]

end Source

section Exact

variable {conf : Conf} {value : Nat → Bytes} {captures : Captures} {R : Request → Prop}

theorem countReferences_eq_zero_iff (v : Bytes) :
    ((countReferences v).1 = 0 ∧ (countReferences v).2 = 0) ↔ 36 ∉ v := by
  induction v with
  | nil => simp [countReferences]
  | cons ch rest ih =>
      rw [List.mem_cons, not_or, ← ih]
      simp only [countReferences]
      by_cases hch : ch = 36
      · subst hch
        simp only [if_true]
        split <;> simp
      · rw [if_neg hch]
        have hne : (36 : UInt8) ≠ ch := fun h => hch h.symm
        simp [hne]

theorem length_codes (codes : List Code) : 8 * codes.length ≤ (codes.flatMap lengthCells).length := by
  induction codes with
  | nil => exact Nat.zero_le _
  | cons code codes ih =>
      have hcode : 8 ≤ (lengthCells code).length := by
        cases code <;> simp only [lengthCells, List.length_append, length_word] <;> omega
      rw [List.flatMap_cons, List.length_append, List.length_cons]
      omega

theorem length_program {codes : List Code} {l : Slots} (h : Program codes l) :
    8 * codes.length ≤ l.length := by
  induction h with
  | nil => exact Nat.zero_le _
  | @cons code codes first l hcode _ ih =>
      have hfirst : 8 ≤ first.length := by
        cases code with
        | copy t =>
            obtain ⟨pad, -, rfl⟩ := hcode
            simp only [List.length_append, length_word]
            omega
        | copyVar index =>
            rw [show first = _ from hcode, List.length_append, length_word]
            omega
        | startArgs => rw [show first = _ from hcode, length_word]
        | copyCapture n =>
            rw [show first = _ from hcode, List.length_append, length_word]
            omega
      rw [List.length_append, List.length_cons]
      omega

-- What a call has to give: the source with its references replaced, and the zero when asked for.
-- The value is as long as what is written to it; without memory there is none.
def Exact (conf : Conf) (value : Nat → Bytes) (captures : Captures) (zero : Bool) (v : Bytes)
    (result : Option (Option Value × Request)) : Prop :=
  ∃ out r', Expands conf.variableIndex value captures v out ∧
    ∃ written, written = out ++ (if zero then [0] else []) ∧
      (result = some (some ⟨written.length, written⟩, r') ∨
        result = some (none, r') ∧ conf.pnalloc written.length = false)

theorem complexValue_plain {zero : Bool} {pool : List Growth} {v : Bytes} {val : Compiled} (r : Request)
    (hv : 36 ∉ v) (h : compileComplexValue conf zero pool v = some val) :
    complexValue conf r val = some (some ⟨v.length, v⟩, r) := by
  unfold compileComplexValue at h
  split at h
  · cases h
  · dsimp only at h
    rw [if_pos ((countReferences_eq_zero_iff v).mpr hv)] at h
    obtain rfl := Option.some.inj h
    rfl

theorem complexValue_exact {zero : Bool} {pool : List Growth} {v : Bytes} {val : Compiled} {r : Request}
    (hv : 36 ∈ v) (h : compileComplexValue conf zero pool v = some val)
    (hs : Steady conf value captures val.flushes R) (hr : R (flushComplexValue r val.flushes)) :
    Exact conf value captures zero v (complexValue conf r val) := by
  unfold compileComplexValue at h
  split at h
  · cases h
  · dsimp only at h
    rw [if_neg fun hcount => (countReferences_eq_zero_iff v).mp hcount hv] at h
    obtain ⟨sc, hcompile, h⟩ := Option.bind_eq_some_iff.mp h
    obtain ⟨s, hemit, h⟩ := Option.bind_eq_some_iff.mp h
    obtain rfl := Option.some.inj h
    obtain ⟨out, hno, hexpands, htext⟩ :=
      compile_expands value captures hcompile
    obtain ⟨hflushes, ⟨lpost, hlengths⟩, l, vpost, hprogram, hvalues⟩ :=
      emit_spec sc.codes _ s ⟨rfl, rfl⟩ hemit
    rw [List.nil_append] at hflushes
    have hf : ∀ i ∈ sc.codes.filterMap index?, i ∈ s.flushes := fun i hi => hflushes ▸ hi
    have hlfuel := length_codes sc.codes
    have hvfuel := length_program hprogram
    obtain ⟨ip, r₁, hrun, hr₁⟩ := runLengths_spec hs sc.codes hno hf s.lengths.elts [] lpost
      (by rw [hlengths, List.nil_append]) (s.lengths.elts.length + 1)
      (by rw [hlengths, List.length_append]; omega)
      ⟨0, [], none, true, false, false, false, flushComplexValue r s.flushes⟩ ⟨rfl, rfl, rfl, rfl, hr⟩ rfl
    obtain ⟨ip', r₂, hrun', -⟩ := runValues_spec hs sc.codes hno hf s.values.elts [] l vpost hprogram
      (by rw [hvalues, List.nil_append]) (s.values.elts.length + 1)
      (by rw [hvalues, List.length_append]; omega)
      ⟨0, [], none, true, false, false, false, r₁⟩ ⟨rfl, rfl, rfl, rfl, hr₁⟩ rfl
    rw [htext] at hrun hrun'
    have hcall : complexValue conf r ⟨v, s.flushes, some s.lengths.elts, s.values.elts⟩ =
        some (if conf.pnalloc (out ++ if zero then [0] else []).length then
          (some ⟨(out ++ if zero then [0] else []).length, out ++ if zero then [0] else []⟩, r₂)
        else (none, r₁)) := by
      simp only [complexValue, hrun, Option.bind_eq_bind, Option.bind_some]
      by_cases hmem : conf.pnalloc (out ++ if zero then [0] else []).length = true
      · simp only [hmem, if_true, hrun', Option.bind_some, List.nil_append]
        rfl
      · simp only [hmem, Bool.false_eq_true, if_false]
        rfl
    by_cases hmem : conf.pnalloc (out ++ if zero then [0] else []).length = true
    · refine ⟨out, r₂, hexpands, _, rfl, .inl ?_⟩
      rw [hcall, if_pos hmem]
    · refine ⟨out, r₁, hexpands, _, rfl, .inr ⟨?_, by simpa using hmem⟩⟩
      rw [hcall, if_neg hmem]

theorem not_exact_plain {v : Bytes} (hv : 36 ∉ v) (r : Request) :
    ¬Exact conf value captures true v (some (some ⟨v.length, v⟩, r)) := by
  rintro ⟨out, r', hexpands, written, rfl, hres | ⟨hres, -⟩⟩
  · obtain rfl := expands_plain hv hexpands
    have hlen : out.length = (out ++ [0]).length :=
      congrArg Value.len (Option.some.inj (Prod.mk.inj (Option.some.inj hres)).1)
    simp at hlen
  · cases (Prod.mk.inj (Option.some.inj hres)).1

-- A source without a '$' is handed out as it stands, so the zero is missing there.
theorem complex_value_exact_iff (conf : Conf) (zero : Bool) (pool : List Growth) (v : Bytes)
    (val : Compiled) (value : Nat → Bytes) (captures : Captures) (R : Request → Prop) (r : Request)
    (h : compileComplexValue conf zero pool v = some val)
    (hs : Steady conf value captures val.flushes R) (hr : R (flushComplexValue r val.flushes)) :
    Exact conf value captures zero v (complexValue conf r val) ↔ zero = false ∨ 36 ∈ v := by
  by_cases hv : 36 ∈ v
  · exact iff_of_true (complexValue_exact hv h hs hr) (.inr hv)
  · rw [complexValue_plain r hv h]
    cases zero with
    | false =>
        refine iff_of_true ⟨v, r, ?_, v, (List.append_nil _).symm, .inl rfl⟩ (.inl rfl)
        have hplain : Expands conf.variableIndex value captures (v ++ []) (v ++ []) :=
          expands_text v (fun c hc heq => hv (heq ▸ hc)) .nil
        rwa [List.append_nil] at hplain
    | true => exact iff_of_false (not_exact_plain hv r) (by simp [hv])

end Exact

section Instances

def sampleConf : Conf := ⟨fun _ r => ⟨true, r.captures, r.vars⟩, fun _ => false,
  fun name => if name = ngxString "x" then some 0 else none, fun _ => true, true⟩

def sampleRequest : Request :=
  ⟨ngxString "/", [], false, false, ⟨ngxString "/", []⟩, [⟨ngxString "yz", true, false, false⟩], false,
    false, false, false, none⟩

theorem complex_value_exact_sample :
    ∃ val, compileComplexValue sampleConf true [.moved, .moved] (ngxString "a$x") = some val ∧
      Exact sampleConf (fun index => bytes sampleRequest.vars[index]?) sampleRequest.captures true
        (ngxString "a$x") (complexValue sampleConf sampleRequest val) := by
  have hflushes : (compileComplexValue sampleConf true [.moved, .moved] (ngxString "a$x")).map
      Compiled.flushes = some [0] := by decide
  obtain ⟨val, hval, hzero⟩ := Option.map_eq_some_iff.mp hflushes
  have hs : Steady sampleConf (fun index => bytes sampleRequest.vars[index]?) sampleRequest.captures
      val.flushes (· = sampleRequest) := by
    refine ⟨fun r hr index hi => ?_, fun r hr => by rw [hr]⟩
    rw [hzero, List.mem_singleton] at hi
    rw [hr, hi]
    exact ⟨rfl, rfl⟩
  have hr : flushComplexValue sampleRequest val.flushes = sampleRequest := by
    rw [hzero]
    rfl
  have hdollar : 36 ∈ ngxString "a$x" := by decide
  exact ⟨val, hval, (complex_value_exact_iff sampleConf true _ _ val _ _ _ sampleRequest hval hs hr).mpr
    (.inr hdollar)⟩

-- The text "a" is compiled with the zero asked for, and its value is one byte long.
theorem plain_text_without_zero :
    (∃ val, compileComplexValue sampleConf true [] (ngxString "a") = some val ∧
      complexValue sampleConf sampleRequest val = some (some ⟨1, ngxString "a"⟩, sampleRequest)) ∧
    ¬∀ (conf : Conf) (zero : Bool) (pool : List Growth) (v : Bytes) (val : Compiled) (value : Nat → Bytes)
      (captures : Captures) (R : Request → Prop) (r : Request),
      compileComplexValue conf zero pool v = some val → Steady conf value captures val.flushes R →
      R (flushComplexValue r val.flushes) → Exact conf value captures zero v (complexValue conf r val) := by
  have hplain : 36 ∉ ngxString "a" := by decide
  have hval : compileComplexValue sampleConf true [] (ngxString "a") =
      some ⟨ngxString "a", [], none, []⟩ := rfl
  refine ⟨⟨_, hval, complexValue_plain sampleRequest hplain hval⟩, fun h => ?_⟩
  have hs : Steady sampleConf (fun _ => []) sampleRequest.captures [] (· = sampleRequest) :=
    ⟨fun _ _ _ hi => absurd hi List.not_mem_nil, fun r hr => by rw [hr]⟩
  have hexact := h _ _ _ _ _ _ _ _ sampleRequest hval hs rfl
  rw [complexValue_plain sampleRequest hplain hval] at hexact
  exact not_exact_plain hplain sampleRequest hexact

end Instances

end Nginx.ComplexValue
