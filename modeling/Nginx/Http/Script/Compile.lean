import Nginx.Http.Script

namespace Nginx.Script

def Code.isVar : Code → Bool
  | .copyVar _ => true
  | _ => false

def Code.textSize : Code → Nat
  | .copy text => text.length
  | _ => 0

def Code.capture? : Code → Option Nat
  | .copyCapture n => some n
  | _ => none

-- The captures that the codes copy, in their order
def captures (codes : List Code) : List Nat := codes.filterMap Code.capture?

theorem captures_append (codes : List Code) (code : Code) (h : code.capture? = none) :
    captures (codes ++ [code]) = captures codes := by
  simp [captures, h]

theorem captures_append_capture (codes : List Code) (n : Nat) :
    captures (codes ++ [.copyCapture n]) = captures codes ++ [n] := by
  simp [captures, Code.capture?]

-- What ngx_http_rewrite can rely on about a compiled text. quota is compile_args at the start.
structure Compile.Sound (quota : Nat) (sc : Compile) : Prop where
  noZero : sc.zero = false
  nvariables : sc.nvariables = sc.codes.countP Code.isVar
  size : sc.size = (sc.codes.map Code.textSize).sum
  mask : ∀ n, sc.capturesMask.testBit n = true ↔ n ∈ captures sc.codes
  nodup : sc.dupCapture = false → (captures sc.codes).Nodup
  positive : ∀ n ∈ captures sc.codes, 1 ≤ n
  marks : sc.codes.count .startArgs + sc.compileArgs.toNat = quota

theorem Compile.Sound.addCapture (h : Compile.Sound quota sc) (n : Nat) (hn : 1 ≤ n) :
    Compile.Sound quota (sc.addCapture n) := by
  have hcaptures : captures (sc.addCapture n).codes = captures sc.codes ++ [n] :=
    captures_append_capture ..
  constructor
  · exact h.noZero
  · simp [Compile.addCapture, Compile.addCode, h.nvariables, Code.isVar]
  · simp [Compile.addCapture, Compile.addCode, h.size, Code.textSize]
  · intro m
    rw [hcaptures, List.mem_append, List.mem_singleton, ← h.mask m]
    simp only [Compile.addCapture, Compile.addCode, Nat.testBit_or, Nat.testBit_two_pow, Bool.or_eq_true,
      decide_eq_true_eq]
    exact or_congr Iff.rfl eq_comm
  · intro hdup
    simp only [Compile.addCapture, Compile.addCode, Bool.or_eq_false_iff] at hdup
    have hfresh : n ∉ captures sc.codes := by
      rw [← h.mask n, hdup.2]
      simp
    rw [hcaptures]
    apply (h.nodup hdup.1).append (List.nodup_singleton n)
    simpa using hfresh
  · intro m hm
    rw [hcaptures, List.mem_append, List.mem_singleton] at hm
    rcases hm with hm | rfl
    · exact h.positive m hm
    · exact hn
  · simpa [Compile.addCapture, Compile.addCode] using h.marks

theorem Compile.Sound.addVar (h : Compile.Sound quota sc) (hvar : sc.addVar conf name = some sc') :
    Compile.Sound quota sc' := by
  unfold Compile.addVar at hvar
  split at hvar
  · obtain rfl := Option.some.inj hvar
    constructor
    · exact h.noZero
    · simp [Compile.addCode, h.nvariables, Code.isVar]
    · simp [Compile.addCode, h.size, Code.textSize]
    · simpa only [Compile.addCode, captures_append _ (.copyVar _) rfl] using h.mask
    · simpa only [Compile.addCode, captures_append _ (.copyVar _) rfl] using h.nodup
    · simpa only [Compile.addCode, captures_append _ (.copyVar _) rfl] using h.positive
    · simpa [Compile.addCode] using h.marks
  · simp at hvar

theorem Compile.Sound.text (h : Compile.Sound quota sc) (src : Bytes) :
    Compile.Sound quota (sc.text src).1 := by
  have hz := h.noZero
  constructor <;> simp only [Compile.text, Compile.addCopyCode, hz, Bool.false_and, if_false, Compile.addCode,
    Bool.false_eq_true]
  · simp [h.nvariables, Code.isVar]
  · simp [h.size, Code.textSize]
  · simpa only [captures_append _ (.copy _) rfl] using h.mask
  · simpa only [captures_append _ (.copy _) rfl] using h.nodup
  · simpa only [captures_append _ (.copy _) rfl] using h.positive
  · simpa using h.marks

theorem Compile.Sound.dollar (h : Compile.Sound quota sc)
    (hturn : sc.dollar conf src = some (sc', rest)) : Compile.Sound quota sc' := by
  unfold Compile.dollar at hturn
  split at hturn
  · simp at hturn
  · rename_i ch src
    split at hturn
    · rename_i hdigit
      simp only [Option.some.injEq, Prod.mk.injEq] at hturn
      obtain ⟨rfl, rfl⟩ := hturn
      have hch : 49 ≤ ch.toNat := UInt8.le_iff_toNat_le.mp hdigit.1
      exact h.addCapture _ (by omega)
    · split at hturn
      · split at hturn
        · simp at hturn
        · obtain ⟨sc'', hvar, heq⟩ := Option.map_eq_some_iff.mp hturn
          obtain ⟨rfl, rfl⟩ := Prod.mk.inj heq
          exact h.addVar hvar
        · simp at hturn
      · split at hturn
        · simp at hturn
        · obtain ⟨sc'', hvar, heq⟩ := Option.map_eq_some_iff.mp hturn
          obtain ⟨rfl, rfl⟩ := Prod.mk.inj heq
          exact h.addVar hvar

theorem Compile.Sound.turn (h : Compile.Sound quota sc)
    (hturn : sc.turn conf ch src = some (sc', rest)) : Compile.Sound quota sc' := by
  unfold Compile.turn at hturn
  split at hturn
  · exact h.dollar hturn
  · split at hturn
    · rename_i hargs
      simp only [Option.some.injEq, Prod.mk.injEq] at hturn
      obtain ⟨rfl, rfl⟩ := hturn
      have hmarks := h.marks
      rw [hargs.2] at hmarks
      constructor
      · exact h.noZero
      · simp [Compile.addCode, h.nvariables, Code.isVar]
      · simp [Compile.addCode, h.size, Code.textSize]
      · simpa only [Compile.addCode, captures_append _ .startArgs rfl] using h.mask
      · simpa only [Compile.addCode, captures_append _ .startArgs rfl] using h.nodup
      · simpa only [Compile.addCode, captures_append _ .startArgs rfl] using h.positive
      · simpa [Compile.addCode] using hmarks
    · have hsc : (sc.text (ch :: src)).1 = sc' := congrArg Prod.fst (Option.some.inj hturn)
      rw [← hsc]
      exact h.text _

theorem Compile.Sound.loop (h : Compile.Sound quota sc) (fuel : Nat) (src : Bytes)
    (hloop : Compile.loop conf fuel sc src = some sc') : Compile.Sound quota sc' := by
  induction fuel generalizing sc src with
  | zero =>
      cases src with
      | nil => exact Option.some.inj hloop ▸ h
      | cons ch src => simp [Compile.loop] at hloop
  | succ fuel ih =>
      cases src with
      | nil => exact Option.some.inj hloop ▸ h
      | cons ch src =>
          rw [Compile.loop] at hloop
          split at hloop
          · rename_i hturn
            exact ih (h.turn hturn) _ hloop
          · simp at hloop

theorem dropWhile_lt_of_takeWhile (p : α → Bool) (s : List α) (h : s.takeWhile p ≠ []) :
    (s.dropWhile p).length < s.length := by
  have hlen := congrArg List.length (List.takeWhile_append_dropWhile (p := p) (l := s))
  have hpos := List.length_pos_iff.mpr h
  rw [List.length_append] at hlen
  omega

-- Each turn goes past the byte that it starts at.
theorem Compile.dollar_length {sc sc' : Compile} {src rest : Bytes}
    (h : sc.dollar conf src = some (sc', rest)) : rest.length ≤ src.length := by
  unfold Compile.dollar at h
  split at h
  · simp at h
  · rename_i ch src
    split at h
    · simp only [Option.some.injEq, Prod.mk.injEq] at h
      simp [← h.2]
    · split at h
      · split at h
        · simp at h
        · rename_i rest' hdrop hne
          obtain ⟨sc'', _, heq⟩ := Option.map_eq_some_iff.mp h
          have hlen : (src.dropWhile isName).length ≤ src.length := (List.dropWhile_suffix isName).length_le
          rw [hdrop] at hlen
          simp only [Prod.mk.injEq] at heq
          simp only [← heq.2, List.length_cons] at hlen ⊢
          omega
        · simp at h
      · split at h
        · simp at h
        · rename_i hne
          obtain ⟨sc'', _, heq⟩ := Option.map_eq_some_iff.mp h
          have hlt := dropWhile_lt_of_takeWhile isName (ch :: src) hne
          simp only [Prod.mk.injEq] at heq
          rw [← heq.2]
          omega

theorem Compile.turn_length {sc sc' : Compile} {src rest : Bytes}
    (h : sc.turn conf ch src = some (sc', rest)) : rest.length ≤ src.length := by
  unfold Compile.turn at h
  split at h
  · exact Compile.dollar_length h
  · rename_i hdollar
    split at h
    · simp only [Option.some.injEq, Prod.mk.injEq] at h
      exact h.2 ▸ Nat.le_refl _
    · rename_i hargs
      have hrest : (sc.text (ch :: src)).2 = rest := congrArg Prod.snd (Option.some.inj h)
      have hin : sc.inText ch = true := by
        simp only [Compile.inText, bne_iff_ne, ne_eq, Bool.and_eq_true, Bool.not_eq_true',
          Bool.and_eq_false_iff, beq_eq_false_iff_ne]
        refine ⟨hdollar, ?_⟩
        by_cases hch : ch = 63
        · exact Or.inr (by simpa using fun hc => hargs ⟨hch, hc⟩)
        · exact Or.inl hch
      rw [← hrest]
      simp only [Compile.text, List.dropWhile_cons, hin, if_true]
      exact (List.dropWhile_suffix _).length_le

-- More fuel than the length of the source changes nothing.
theorem Compile.loop_fuel (conf : Conf) (fuel more : Nat) (sc : Compile) (src : Bytes)
    (h : src.length ≤ fuel) : Compile.loop conf (fuel + more) sc src = Compile.loop conf fuel sc src := by
  induction fuel generalizing sc src with
  | zero =>
      have hsrc : src = [] := List.length_eq_zero_iff.mp (by omega)
      simp [hsrc, Compile.loop]
  | succ fuel ih =>
      cases src with
      | nil => simp [Compile.loop]
      | cons ch src =>
          rw [Nat.add_right_comm, Compile.loop, Compile.loop]
          split
          · rename_i hturn
            apply ih
            have hlen := Compile.turn_length hturn
            rw [List.length_cons] at h
            omega
          · rfl

end Nginx.Script
