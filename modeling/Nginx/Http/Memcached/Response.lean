import Nginx.Http.Memcached.Filter
import Nginx.Http.RangeFilter

namespace Nginx.Memcached

open RangeFilter (isDigit value Numeral)

-- What stands in front of the flags
def opening (vv : Bytes) : Bytes := ngxString "VALUE " ++ key vv ++ [32]

-- A first line with a value for the key, up to its LF
structure Line (vv stream flags number more : Bytes) : Prop where
  text : stream = opening vv ++ flags ++ 32 :: number ++ 10 :: more
  blank : 32 ∉ flags
  newline : 10 ∉ flags
  nul : 0 ∉ flags
  number : 10 ∉ number

-- What the code takes for the length: what is in front of the first CR, or else in front of the last byte before a NUL
-- or the LF
def Accepted (number : Bytes) : Prop :=
  let p := skipLength (number ++ [0])
  atoof (number ++ [0]) (if p = 0 then 2 ^ 64 - 1 else p - 1) ≠ -1

theorem key_clean (vv : Bytes) : 0 ∉ key vv ∧ 10 ∉ key vv := by
  have hsafe : ∀ c : UInt8, EscapeType.memcached.escapes c = false → c ≠ 0 ∧ c ≠ 10 :=
    byte_cases (by decide +kernel)
  have hhex : ∀ n : UInt8, n < 16 → hexDigit n ≠ 0 ∧ hexDigit n ≠ 10 :=
    byte_cases (by decide +kernel)
  have hhigh : ∀ c : UInt8, c >>> 4 < 16 := byte_cases (by decide +kernel)
  have hlow : ∀ c : UInt8, c &&& 0xf < 16 := byte_cases (by decide +kernel)
  have hescaped : ∀ src : Bytes, 0 ∉ escapeUri .memcached src ∧ 10 ∉ escapeUri .memcached src := by
    intro src
    induction src with
    | nil => simp [escapeUri]
    | cons c src ih =>
        rw [escapeUri]
        split
        · have hone := hhex _ (hhigh c)
          have htwo := hhex _ (hlow c)
          simp only [List.mem_cons, not_or]
          exact ⟨⟨by decide, hone.1.symm, htwo.1.symm, ih.1⟩, by decide, hone.2.symm, htwo.2.symm, ih.2⟩
        · rename_i hplain
          have hc := hsafe c (by simpa using hplain)
          simp only [List.mem_cons, not_or]
          exact ⟨⟨hc.1.symm, ih.1⟩, hc.2.symm, ih.2⟩
  unfold key createRequest
  dsimp only
  split
  · rename_i hcount
    have hnone : ∀ c ∈ vv, EscapeType.memcached.escapes c = false := by
      intro c hc
      have hzero := List.countP_eq_zero.mp hcount c hc
      simpa using hzero
    exact ⟨fun h => (hsafe 0 (hnone 0 h)).1 rfl, fun h => (hsafe 10 (hnone 10 h)).2 rfl⟩
  · exact hescaped vv

theorem opening_clean (vv : Bytes) : 0 ∉ opening vv ∧ 10 ∉ opening vv := by
  obtain ⟨h0, h10⟩ := key_clean vv
  have hvalue0 : 0 ∉ ngxString "VALUE " := by decide
  have hvalue10 : 10 ∉ ngxString "VALUE " := by decide
  simp only [opening, List.mem_append, List.mem_singleton, not_or]
  exact ⟨⟨⟨hvalue0, h0⟩, by decide⟩, ⟨hvalue10, h10⟩, by decide⟩

-- The lists agree up to the first a in both.
theorem first_unique {a : UInt8} {one two rest rest' : Bytes} (hone : a ∉ one) (htwo : a ∉ two)
    (h : one ++ a :: rest = two ++ a :: rest') : one = two ∧ rest = rest' := by
  induction one generalizing two with
  | nil =>
      cases two with
      | nil => exact ⟨rfl, List.tail_eq_of_cons_eq h⟩
      | cons c two =>
          obtain ⟨rfl, -⟩ := List.cons.inj h
          exact absurd List.mem_cons_self htwo
  | cons c one ih =>
      cases two with
      | nil =>
          obtain ⟨rfl, -⟩ := List.cons.inj h
          exact absurd List.mem_cons_self hone
      | cons d two =>
          obtain ⟨rfl, hrest⟩ := List.cons.inj h
          obtain ⟨rfl, hmore⟩ := ih (fun hm => hone (List.mem_cons_of_mem _ hm))
            (fun hm => htwo (List.mem_cons_of_mem _ hm)) hrest
          exact ⟨rfl, hmore⟩

-- strncmp with a text without a NUL, as long as the text
theorem strncmp_text (s text : Bytes) (h0 : 0 ∉ text) :
    (strncmp s text text.length).map Prod.fst = some true ↔ text <+: s := by
  induction text generalizing s with
  | nil => simp [strncmp]
  | cons d text ih =>
      rw [List.mem_cons, not_or] at h0
      cases s with
      | nil => simp [strncmp]
      | cons c s =>
          rw [List.length_cons, strncmp, List.cons_prefix_cons]
          by_cases hc : c = d
          · have hne : c ≠ 0 := fun heq => h0.1 (heq ▸ hc)
            rw [if_neg (by simpa using hc), if_neg hne, Option.map_map, ← ih s h0.2, Function.comp_def]
            simp [hc]
          · rw [if_pos hc]
            simp [Ne.symm hc]

theorem skipFlags_eq (p rest : Bytes) :
    skipFlags p = some rest ↔ ∃ flags, p = flags ++ 32 :: rest ∧ 32 ∉ flags ∧ 0 ∉ flags := by
  induction p with
  | nil => simp [skipFlags]
  | cons c p ih =>
      rw [skipFlags]
      by_cases h0 : c = 0
      · rw [if_pos h0]
        constructor
        · intro h
          cases h
        · rintro ⟨flags, htext, -, hnul⟩
          cases flags with
          | nil =>
              obtain ⟨rfl, -⟩ := List.cons.inj htext
              cases h0
          | cons d flags =>
              obtain ⟨rfl, -⟩ := List.cons.inj htext
              exact absurd (h0 ▸ List.mem_cons_self) hnul
      · rw [if_neg h0]
        by_cases h32 : c = 32
        · rw [if_pos h32]
          constructor
          · intro h
            cases h
            exact ⟨[], by rw [h32]; rfl, by simp, by simp⟩
          · rintro ⟨flags, htext, hblank, -⟩
            cases flags with
            | nil => rw [(List.cons.inj htext).2]
            | cons d flags =>
                obtain ⟨rfl, -⟩ := List.cons.inj htext
                exact absurd (h32 ▸ List.mem_cons_self) hblank
        · rw [if_neg h32, ih]
          constructor
          · rintro ⟨flags, rfl, hblank, hnul⟩
            refine ⟨c :: flags, rfl, ?_, ?_⟩
            · rw [List.mem_cons, not_or]
              exact ⟨Ne.symm h32, hblank⟩
            · rw [List.mem_cons, not_or]
              exact ⟨Ne.symm h0, hnul⟩
          · rintro ⟨flags, htext, hblank, hnul⟩
            cases flags with
            | nil =>
                obtain ⟨rfl, -⟩ := List.cons.inj htext
                cases h32 rfl
            | cons d flags =>
                obtain ⟨rfl, hrest⟩ := List.cons.inj htext
                exact ⟨flags, hrest, fun hm => hblank (List.mem_cons_of_mem _ hm),
                  fun hm => hnul (List.mem_cons_of_mem _ hm)⟩

theorem skipLength_nul (number more : Bytes) : skipLength (number ++ 0 :: more) = skipLength (number ++ [0]) := by
  induction number with
  | nil => rfl
  | cons c number ih =>
      rw [List.cons_append, List.cons_append, skipLength, skipLength, ih]

theorem atoofLoop_nul (v : Int) (number more : Bytes) (n : Nat) :
    atoofLoop v (number ++ 0 :: more) n = atoofLoop v (number ++ [0]) n := by
  induction number generalizing v n with
  | nil =>
      cases n with
      | zero => rfl
      | succ n =>
          have hnul : (0 : UInt8) < 48 ∨ 57 < (0 : UInt8) := by decide
          rw [List.nil_append, List.nil_append, atoofLoop, atoofLoop, if_pos hnul, if_pos hnul]
  | cons c number ih =>
      cases n with
      | zero => rfl
      | succ n => rw [List.cons_append, List.cons_append, atoofLoop, atoofLoop, ih]

theorem atoof_nul (number more : Bytes) (n : Nat) : atoof (number ++ 0 :: more) n = atoof (number ++ [0]) n := by
  rw [atoof, atoof, atoofLoop_nul]

theorem atoofLoop_lt (v : Int) (line : Bytes) (n : Nat) (out : Int) (hv : v < 2 ^ 63)
    (h : atoofLoop v line n = some out) : out < 2 ^ 63 := by
  induction line generalizing v n with
  | nil =>
      cases n with
      | zero =>
          cases h
          exact hv
      | succ n => cases h
  | cons c line ih =>
      cases n with
      | zero =>
          cases h
          exact hv
      | succ n =>
          rw [atoofLoop] at h
          split at h
          · cases h
          · refine ih _ _ ?_ h
            unfold toInt64
            rw [Int.bmod_def]
            split <;> omega

theorem atoof_lt (line : Bytes) (n : Nat) : atoof line n < 2 ^ 63 := by
  unfold atoof
  split
  · decide
  · split
    · decide
    · rename_i out hout
      have hlt := atoofLoop_lt 0 line n out (by decide) hout
      split <;> omega

theorem processLength_eq (text : Bytes) :
    processLength text =
      if atoof text (if skipLength text = 0 then 2 ^ 64 - 1 else skipLength text - 1) = -1 then .invalid
      else .found (atoof text (if skipLength text = 0 then 2 ^ 64 - 1 else skipLength text - 1))
        (text.drop (skipLength text + 1)) := rfl

theorem processLength_invalid (number more : Bytes) (h : ¬Accepted number) :
    processLength (number ++ 0 :: more) = .invalid := by
  rw [processLength_eq, skipLength_nul, atoof_nul, if_pos (Decidable.not_not.mp h)]

theorem processLength_found (number more : Bytes) (h : Accepted number) :
    ∃ n body, n < 2 ^ 63 ∧ processLength (number ++ 0 :: more) = .found n body := by
  rw [processLength_eq, skipLength_nul, atoof_nul, if_neg h]
  exact ⟨_, _, atoof_lt _ _, rfl⟩

theorem processLength_ne_again (text : Bytes) : processLength text ≠ .again := by
  rw [processLength_eq]
  generalize atoof text (if skipLength text = 0 then 2 ^ 64 - 1 else skipLength text - 1) = n
  split <;> simp

theorem processHeader_line (vv buffer flags number more : Bytes) (h : Line vv buffer flags number more) :
    processHeader (key vv) buffer = processLength (number ++ 0 :: more) := by
  obtain ⟨h0, h10⟩ := opening_clean vv
  have hline : 10 ∉ opening vv ++ flags ++ 32 :: number := by
    simp only [List.mem_append, List.mem_cons, not_or]
    exact ⟨⟨h10, h.newline⟩, by decide, h.number⟩
  have hbuffer : buffer = (opening vv ++ flags ++ 32 :: number) ++ 10 :: more := h.text
  have htake : buffer.takeWhile (· ≠ 10) = opening vv ++ flags ++ 32 :: number := by
    rw [hbuffer, List.takeWhile_append_of_pos]
    · simp
    · intro c hc
      have hne : c ≠ 10 := fun heq => hline (heq ▸ hc)
      simpa using hne
  have hdrop : buffer.drop ((opening vv ++ flags ++ 32 :: number).length + 1) = more := by
    rw [hbuffer, ← List.drop_drop, List.drop_left, List.drop_one, List.tail_cons]
  have hvalue : 0 ∉ ngxString "VALUE " := by decide
  have hvalueLen : (ngxString "VALUE ").length = 6 := ngxString_length _
  have htext : opening vv ++ flags ++ 32 :: number ++ 0 :: more =
      ngxString "VALUE " ++ (key vv ++ 32 :: (flags ++ 32 :: (number ++ 0 :: more))) := by
    simp [opening]
  rw [processHeader, if_pos (by rw [hbuffer]; simp)]
  dsimp only
  rw [htake, hdrop, htext, processText]
  have hfirst := (strncmp_text (ngxString "VALUE " ++ (key vv ++ 32 :: (flags ++ 32 :: (number ++ 0 :: more)))) _
    hvalue).mpr (List.prefix_append _ _)
  rw [hvalueLen] at hfirst
  have hsecond := (strncmp_text (key vv ++ 32 :: (flags ++ 32 :: (number ++ 0 :: more))) _ (key_clean vv).1).mpr
    (List.prefix_append _ _)
  have hflags := (skipFlags_eq (flags ++ 32 :: (number ++ 0 :: more)) _).mpr ⟨flags, rfl, h.blank, h.nul⟩
  rw [if_pos hfirst]
  dsimp only
  rw [List.drop_left' hvalueLen, if_neg (by rw [hsecond]; simp), List.drop_left, if_neg (by simp), List.tail_cons,
    hflags]

-- Only such a line is accepted.
theorem processHeader_found (vv buffer body : Bytes) (n : Int) (h : processHeader (key vv) buffer = .found n body) :
    ∃ flags number more, Line vv buffer flags number more := by
  unfold processHeader at h
  split at h
  · rename_i hmem
    obtain ⟨line, more, hbuffer, hline⟩ := List.eq_append_cons_of_mem hmem
    have htake : buffer.takeWhile (· ≠ 10) = line := by
      rw [hbuffer, List.takeWhile_append_of_pos]
      · simp
      · intro c hc
        have hne : c ≠ 10 := fun heq => hline (heq ▸ hc)
        simpa using hne
    have hdrop : buffer.drop (line.length + 1) = more := by
      rw [hbuffer, ← List.drop_drop, List.drop_left]
      rfl
    dsimp only at h
    rw [htake, hdrop] at h
    unfold processText at h
    split at h
    · rename_i hfirst
      obtain ⟨text, htext⟩ := (strncmp_text _ (ngxString "VALUE ") (by decide)).mp hfirst
      have hvalueLen : (ngxString "VALUE ").length = 6 := ngxString_length _
      dsimp only at h
      rw [← htext, List.drop_left' hvalueLen] at h
      split at h
      · cases h
      · rename_i hsecond
        obtain ⟨text', htext'⟩ := (strncmp_text _ (key vv) (key_clean vv).1).mp (Decidable.not_not.mp hsecond)
        rw [← htext', List.drop_left] at h
        split at h
        · cases h
        · rename_i hhead
          split at h
          · cases h
          · rename_i p hp
            obtain ⟨flags, hflags, hblank, hnul⟩ := (skipFlags_eq _ _).mp hp
            have hcons : text' = 32 :: text'.tail := by
              cases text' with
              | nil => simp at hhead
              | cons c text' =>
                  rw [List.head?_cons, Decidable.not_not, Option.some.injEq] at hhead
                  rw [hhead, List.tail_cons]
            have hall : line ++ 0 :: more = (opening vv ++ flags ++ [32]) ++ p := by
              rw [← htext, ← htext', hcons, hflags]
              simp [opening]
            have hnulFront : 0 ∉ opening vv ++ flags ++ [32] := by
              simp only [List.mem_append, List.mem_singleton, not_or]
              exact ⟨⟨(opening_clean vv).1, hnul⟩, by decide⟩
            obtain ⟨number, hnumber⟩ : ∃ number, line = (opening vv ++ flags ++ [32]) ++ number := by
              rcases List.append_eq_append_iff.mp hall with ⟨front, hfront, hrest⟩ | ⟨number, hline', -⟩
              · cases front with
                | nil => exact ⟨[], by rw [hfront, List.append_nil, List.append_nil]⟩
                | cons c front =>
                    obtain ⟨rfl, -⟩ := List.cons.inj hrest
                    exact absurd (hfront ▸ List.mem_append_right _ List.mem_cons_self) hnulFront
              · exact ⟨number, hline'⟩
            rw [hnumber] at hline
            simp only [List.mem_append, List.mem_singleton, not_or] at hline
            refine ⟨flags, number, more, ?_, hblank, hline.1.1.2, hnul, hline.2⟩
            rw [hbuffer, hnumber]
            simp
    · split at h <;> cases h
  · cases h

theorem Line.unique {vv stream flags number more flags' number' more' : Bytes} (h : Line vv stream flags number more)
    (h' : Line vv stream flags' number' more') : flags = flags' ∧ number = number' ∧ more = more' := by
  have hline : ∀ f m : Bytes, 10 ∉ f → 10 ∉ m → 10 ∉ opening vv ++ f ++ 32 :: m := by
    intro f m hf hm
    simp only [List.mem_append, List.mem_cons, not_or]
    exact ⟨⟨(opening_clean vv).2, hf⟩, by decide, hm⟩
  have hsame : (opening vv ++ flags ++ 32 :: number) ++ 10 :: more =
      (opening vv ++ flags' ++ 32 :: number') ++ 10 :: more' := by
    have htext := h.text.symm.trans h'.text
    simpa only [List.append_assoc, List.cons_append] using htext
  obtain ⟨hfront, hmore⟩ :=
    first_unique (hline _ _ h.newline h.number) (hline _ _ h'.newline h'.number) hsame
  rw [List.append_assoc, List.append_assoc] at hfront
  obtain ⟨hflags, hnumber⟩ := first_unique h.blank h'.blank (List.append_cancel_left hfront)
  exact ⟨hflags, hnumber, hmore⟩

theorem processHeader_again (vv buffer : Bytes) : processHeader (key vv) buffer = .again ↔ 10 ∉ buffer := by
  constructor
  · intro h hmem
    rw [processHeader, if_pos hmem] at h
    dsimp only at h
    unfold processText at h
    dsimp only at h
    split at h
    · split at h
      · cases h
      · split at h
        · cases h
        · split at h
          · cases h
          · exact processLength_ne_again _ h
    · split at h <;> cases h
  · intro hmem
    rw [processHeader, if_neg hmem]

-- The reads behind the first LF
def behind : List Bytes → List Bytes
  | [] => []
  | read :: reads => if 10 ∈ read then (read.dropWhile (· ≠ 10)).tail :: reads else behind reads

-- The header is looked for in what has been read, up to the read with the first LF.
theorem receive_split (vv buffer : Bytes) (reads : List Bytes) (hbuffer : 10 ∉ buffer) :
    (10 ∉ reads.flatten ∧ receive (key vv) buffer reads = none) ∨
      ∃ front read rest, reads = front ++ read :: rest ∧ 10 ∉ front.flatten ∧ 10 ∈ read ∧
        receive (key vv) buffer reads = some (processHeader (key vv) (buffer ++ front.flatten ++ read), rest) ∧
        behind reads = (read.dropWhile (· ≠ 10)).tail :: rest := by
  induction reads generalizing buffer with
  | nil => exact Or.inl ⟨by simp, rfl⟩
  | cons read reads ih =>
      by_cases hread : 10 ∈ read
      · refine Or.inr ⟨[], read, reads, rfl, by simp, hread, ?_, by rw [behind, if_pos hread]⟩
        rw [receive, List.flatten_nil, List.append_nil]
        split
        · rename_i hagain
          exact absurd (List.mem_append_right _ hread) ((processHeader_again vv _).mp hagain)
        · rfl
      · have hnone : 10 ∉ buffer ++ read := by
          rw [List.mem_append, not_or]
          exact ⟨hbuffer, hread⟩
        have hagain := (processHeader_again vv (buffer ++ read)).mpr hnone
        rw [receive, hagain, behind, if_neg hread]
        rcases ih (buffer ++ read) hnone with ⟨hflat, hrec⟩ | ⟨front, last, rest, hreads, hfront, hlast, hrec, hbehind⟩
        · refine Or.inl ⟨?_, hrec⟩
          rw [List.flatten_cons, List.mem_append, not_or]
          exact ⟨hread, hflat⟩
        · refine Or.inr ⟨read :: front, last, rest, by rw [hreads]; rfl, ?_, hlast, ?_, hbehind⟩
          · rw [List.flatten_cons, List.mem_append, not_or]
            exact ⟨hread, hfront⟩
          · rw [hrec, List.flatten_cons, List.append_assoc buffer read]

theorem value_ge (ds : Bytes) (v : Nat) : v ≤ ds.foldl (fun n c => n * 10 + (c.toNat - 48)) v := by
  induction ds generalizing v with
  | nil => exact Nat.le_refl v
  | cons c ds ih =>
      have hmore := ih (v * 10 + (c.toNat - 48))
      rw [List.foldl_cons]
      omega

theorem atoofLoop_digits (ds rest : Bytes) (v : Nat) (hdigits : ∀ c ∈ ds, isDigit c = true)
    (hlt : ds.foldl (fun n c => n * 10 + (c.toNat - 48)) v < 2 ^ 63) :
    atoofLoop v (ds ++ rest) ds.length = some ((ds.foldl (fun n c => n * 10 + (c.toNat - 48)) v : Nat) : Int) := by
  induction ds generalizing v with
  | nil => simp [atoofLoop]
  | cons c ds ih =>
      have hdigit := hdigits c List.mem_cons_self
      simp only [isDigit, Bool.and_eq_true, decide_eq_true_eq] at hdigit
      have hlow : 48 ≤ c.toNat := UInt8.le_iff_toNat_le.mp hdigit.1
      have hnot : ¬(c < 48 ∨ 57 < c) := by
        rw [not_or]
        exact ⟨UInt8.not_lt.mpr hdigit.1, UInt8.not_lt.mpr hdigit.2⟩
      rw [List.foldl_cons] at hlt ⊢
      have hge := value_ge ds (v * 10 + (c.toNat - 48))
      have hstep : toInt64 ((v : Int) * 10 + (c.toNat - 48)) = (v * 10 + (c.toNat - 48) : Nat) := by
        rw [toInt64_of_range _ (by omega) (by omega)]
        omega
      rw [List.cons_append, List.length_cons, atoofLoop, if_neg hnot, hstep]
      exact ih (v * 10 + (c.toNat - 48)) (fun d hd => hdigits d (List.mem_cons_of_mem _ hd)) hlt

theorem skipLength_digits (ds rest : Bytes) (hdigits : ∀ c ∈ ds, isDigit c = true) :
    skipLength (ds ++ 13 :: rest) = ds.length + 1 := by
  induction ds with
  | nil => rfl
  | cons c ds ih =>
      have hdigit := hdigits c List.mem_cons_self
      have h0 : c ≠ 0 := by
        rintro rfl
        revert hdigit
        decide
      have h13 : c ≠ 13 := by
        rintro rfl
        revert hdigit
        decide
      rw [List.cons_append, skipLength, if_neg h0, if_neg h13, ih (fun d hd => hdigits d (List.mem_cons_of_mem _ hd)),
        List.length_cons]

-- A length that is written as it should be
theorem processLength_digits (ds more : Bytes) (hne : ds ≠ []) (hdigits : ∀ c ∈ ds, isDigit c = true)
    (hlt : value ds < 2 ^ 63) : processLength (ds ++ [13] ++ 0 :: more) = .found (value ds) more := by
  have hpos : 0 < ds.length := List.length_pos_iff.mpr hne
  have htext : ds ++ [13] ++ 0 :: more = ds ++ 13 :: 0 :: more := by simp
  have hskip := skipLength_digits ds (0 :: more) hdigits
  have hatoof : atoof (ds ++ 13 :: 0 :: more) ds.length = value ds := by
    have hloop := atoofLoop_digits ds (13 :: 0 :: more) 0 hdigits hlt
    have hzero : ((0 : Nat) : Int) = 0 := rfl
    rw [hzero] at hloop
    rw [atoof, if_neg (by omega), hloop]
    dsimp only
    rw [if_neg (by omega)]
    rfl
  have hdrop : (ds ++ 13 :: 0 :: more).drop (ds.length + 1 + 1) = more := by
    rw [Nat.add_assoc, ← List.drop_drop, List.drop_left]
    rfl
  rw [htext, processLength_eq, hskip, if_neg (Nat.succ_ne_zero ds.length), Nat.add_sub_cancel, hatoof, if_neg (by omega),
    hdrop]

-- What a response with the status 200 has to be: the stream begins with the line, and what is passed on is the value.
def Correct (vv : Bytes) (reads : List Bytes) : Prop :=
  ∀ n body rest, receive (key vv) [] reads = some (.found n body, rest) →
    ∃ flags digits k, Line vv reads.flatten flags (digits ++ [13]) (body ++ rest.flatten) ∧ Numeral digits k ∧ n = k ∧
      Clean k (filterInit n) [] (body :: rest)

-- The length is a number with CR LF behind it, and the reads behind the line are cut as they should be.
def Proper (number : Bytes) (reads : List Bytes) : Prop :=
  ∃ digits k, number = digits ++ [13] ∧ Numeral digits k ∧ k < 2 ^ 63 ∧ Bounded k [] (behind reads)

theorem filterInit_received (n : Nat) (hn : n < 2 ^ 63) : Received n [] (filterInit n) := by
  have hsize : toSize (n : Int) = n := by
    have hcast := toSize_of_nonneg (n : Int) (by omega) (by omega)
    omega
  have hlength : toSize (toSize (n : Int) + memcachedEndLen) = n + 7 := by
    have hcast := toSize_of_nonneg ((n : Int) + memcachedEndLen) (by unfold memcachedEndLen; omega)
      (by unfold memcachedEndLen; omega)
    rw [hsize]
    unfold memcachedEndLen at hcast ⊢
    omega
  refine ⟨by simp, by simp [filterInit], ?_, ?_⟩
  · intro _
    exact ⟨hlength, rfl⟩
  · intro hzero
    rw [List.length_nil] at hzero ⊢
    refine ⟨hlength, ?_⟩
    show 7 = n + 7 - 0
    omega

theorem correct_iff (vv : Bytes) (reads : List Bytes) :
    Correct vv reads ↔
      ∀ flags number more, Line vv reads.flatten flags number more → Accepted number → Proper number reads := by
  rcases receive_split vv [] reads (by simp) with ⟨hnone, hreceive⟩ | ⟨front, read, rest, hreads, hfront, hread, hreceive, hbehind⟩
  · constructor
    · intro _ flags number more hline
      exact absurd (by rw [hline.text]; simp) hnone
    · intro _ n body rest hsome
      rw [hreceive] at hsome
      cases hsome
  · rw [List.nil_append] at hreceive
    obtain ⟨last, tail, hlast, hlastNone⟩ := List.eq_append_cons_of_mem hread
    have hflat : reads.flatten = (front.flatten ++ read) ++ rest.flatten := by
      rw [hreads]
      simp
    have htail : behind reads = tail :: rest := by
      rw [hbehind, hlast, List.dropWhile_append_of_pos]
      · simp
      · intro c hc
        have hne : c ≠ 10 := fun heq => hlastNone (heq ▸ hc)
        simpa using hne
    -- A line of the stream is one of the buffer.
    have hbuffer : ∀ flags number more, Line vv reads.flatten flags number more →
        Line vv (front.flatten ++ read) flags number tail ∧ more = tail ++ rest.flatten := by
      intro flags number more hline
      have hnone : 10 ∉ front.flatten ++ last := by
        rw [List.mem_append, not_or]
        exact ⟨hfront, hlastNone⟩
      have htext : 10 ∉ opening vv ++ flags ++ 32 :: number := by
        simp only [List.mem_append, List.mem_cons, not_or]
        exact ⟨⟨(opening_clean vv).2, hline.newline⟩, by decide, hline.number⟩
      have hsame : (front.flatten ++ last) ++ 10 :: (tail ++ rest.flatten) =
          (opening vv ++ flags ++ 32 :: number) ++ 10 :: more := by
        rw [← hline.text, hflat, hlast]
        simp
      obtain ⟨hopening, hmore⟩ := first_unique hnone htext hsame
      refine ⟨⟨?_, hline.blank, hline.newline, hline.nul, hline.number⟩, hmore.symm⟩
      rw [hlast, ← hopening]
      simp
    constructor
    · intro hcorrect flags number more hline haccepted
      obtain ⟨hfirst, -⟩ := hbuffer _ _ _ hline
      obtain ⟨n, body, hn, hfound⟩ := processLength_found number tail haccepted
      rw [processHeader_line _ _ _ _ _ hfirst, hfound] at hreceive
      obtain ⟨flags', digits, k, hline', hnumeral, hk, hclean⟩ := hcorrect n body rest hreceive
      obtain ⟨rfl, rfl, -⟩ := hline.unique hline'
      have hlt : k < 2 ^ 63 := by omega
      obtain ⟨hne, hdigits, hvalue⟩ := hnumeral
      have hlength := processLength_digits digits tail hne hdigits (by rw [hvalue]; exact hlt)
      rw [hlength] at hfound
      cases hfound
      rw [hvalue] at hclean
      refine ⟨digits, k, rfl, ⟨hne, hdigits, hvalue⟩, hlt, ?_⟩
      rw [htail]
      exact (clean_iff hlt (filterInit_received k hlt) _).mp hclean
    · intro hproper n body rest' hsome
      rw [hreceive, Option.some.injEq, Prod.mk.injEq] at hsome
      obtain ⟨hfound, rfl⟩ := hsome
      obtain ⟨flags, number, more, hline⟩ := processHeader_found _ _ _ _ hfound
      have hwhole : Line vv reads.flatten flags number (more ++ rest.flatten) := by
        refine ⟨?_, hline.blank, hline.newline, hline.nul, hline.number⟩
        rw [hflat, hline.text]
        simp
      obtain ⟨hfirst, hmore⟩ := hbuffer _ _ _ hwhole
      have hmoreTail : more = tail := List.append_cancel_right hmore
      subst hmoreTail
      rw [processHeader_line _ _ _ _ _ hline] at hfound
      have haccepted : Accepted number := by
        by_contra hnot
        rw [processLength_invalid number more hnot] at hfound
        cases hfound
      obtain ⟨digits, k, rfl, ⟨hne, hdigits, hvalue⟩, hlt, hbounded⟩ := hproper _ _ _ hwhole haccepted
      rw [processLength_digits digits more hne hdigits (by rw [hvalue]; exact hlt), hvalue] at hfound
      cases hfound
      refine ⟨flags, digits, k, hwhole, ⟨hne, hdigits, hvalue⟩, rfl, ?_⟩
      rw [htail] at hbounded
      exact (clean_iff hlt (filterInit_received k hlt) _).mpr hbounded

-- A byte behind the trailer in the read that ends the value
theorem overlong_read : ¬Correct (ngxString "k") [ngxString "VALUE k 0 5\r\nhello\r\nEND\r\nX"] := by
  intro h
  have hreceive : receive (key (ngxString "k")) [] [ngxString "VALUE k 0 5\r\nhello\r\nEND\r\nX"] =
      some (.found 5 (ngxString "hello\r\nEND\r\nX"), []) := by decide
  obtain ⟨-, -, -, -, -, -, e, hfilter, -, hwrapped, -⟩ := h _ _ _ hreceive
  have heffect : filter (filterInit 5) (ngxString "hello\r\nEND\r\nX") =
      some ⟨⟨2 ^ 64 - 1, 2 ^ 64 - 1, ngxString "hello"⟩, 8, true⟩ := by decide
  rw [heffect] at hfilter
  cases hfilter
  cases hwrapped

end Nginx.Memcached
