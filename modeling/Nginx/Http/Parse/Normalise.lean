import Nginx.Http.Parse
import Nginx.Library.Segments

namespace Nginx.HttpParse

open Segments

def hexDigit (c : UInt8) : Option UInt8 :=
  if 48 ≤ c ∧ c ≤ 57 then some (c - 48)
  else if 65 ≤ c ∧ c ≤ 70 then some (c - 65 + 10)
  else if 97 ≤ c ∧ c ≤ 102 then some (c - 97 + 10)
  else none

-- The path part with its percent sequences decoded, and whether the text ends inside of one; none for a
-- malformed sequence and for a NUL.
def decode : Bytes → Option (Bytes × Bool)
  | [] => some ([], false)
  | c :: rest =>
      if c = 63 ∨ c = 35 then some ([], false)
      else if c = 37 then
        match rest with
        | [] => some ([], true)
        | [h] => (hexDigit h).map fun _ => ([], true)
        | h :: l :: rest => do
            let high ← hexDigit h
            let low ← hexDigit l
            if high * 16 + low = 0 then none
            else (decode rest).map fun (path, cut) => ((high * 16 + low) :: path, cut)
      else (decode rest).map fun (path, cut) => (c :: path, cut)

-- What a URI that begins with a slash is normalised to, or none if it has to be refused.
def normalise (uri : Bytes) : Option Bytes :=
  match decode uri with
  | some (path, false) => resolve 47 46 path.tail
  | _ => none

theorem decode_cons (c : UInt8) (rest : Bytes) : decode (c :: rest) =
    if c = 63 ∨ c = 35 then some ([], false)
    else if c = 37 then
      match rest with
      | [] => some ([], true)
      | [h] => (hexDigit h).map fun _ => ([], true)
      | h :: l :: rest => do
          let high ← hexDigit h
          let low ← hexDigit l
          if high * 16 + low = 0 then none
          else (decode rest).map fun (path, cut) => ((high * 16 + low) :: path, cut)
    else (decode rest).map fun (path, cut) => (c :: path, cut) := by
  match rest with
  | [] => rfl
  | [_] => rfl
  | _ :: _ :: _ => rfl

def placeOf (seg : Bytes) : Place :=
  if seg = [] then .slash else if seg = [46] then .dot else if seg = [46, 46] then .dotDot else .usual

theorem placeOf_push (seg : Bytes) (ch : UInt8) (h : ch ≠ 46) : placeOf (seg ++ [ch]) = .usual := by
  have hdot : seg ++ [ch] ≠ [46] := by
    intro heq
    cases seg with
    | nil => exact h (List.cons.inj heq).1
    | cons c seg => simp at heq
  have hdots : seg ++ [ch] ≠ [46, 46] := by
    intro heq
    have hlast := congrArg List.getLast? heq
    simp only [List.getLast?_append, List.getLast?_singleton, Option.some_or] at hlast
    exact h (Option.some.inj hlast)
  rw [placeOf, if_neg (by simp), if_neg hdot, if_neg hdots]

-- All characters that are not usual.
theorem isUsual_eq_false_iff (ch : UInt8) :
    isUsual ch = false ↔ ch ∈ [0, 10, 13, 32, 35, 37, 43, 46, 47, 63] := by
  have hall : ∀ n < 256, isUsual (UInt8.ofNat n) = false ↔
      UInt8.ofNat n ∈ ([0, 10, 13, 32, 35, 37, 43, 46, 47, 63] : Bytes) := by decide +kernel
  have h := hall ch.toNat ch.toNat_lt
  rwa [UInt8.ofNat_toNat] at h

theorem not_usual {ch : UInt8} (h : ch = 35 ∨ ch = 37 ∨ ch = 46 ∨ ch = 47 ∨ ch = 63) : isUsual ch = false := by
  rw [isUsual_eq_false_iff]
  rcases h with rfl | rfl | rfl | rfl | rfl <;> decide

-- What the output has been rewritten to, in directories and a segment.
structure Shows (r : Uri) (dirs : List Bytes) (seg : Bytes) : Prop where
  out : r.out = (render 47 dirs seg).reverse
  proper : Proper 47 dirs seg

-- The state of the loop between two characters of the path.
structure Reads (r : Uri) (dirs : List Bytes) (seg : Bytes) : Prop extends Shows r dirs seg where
  state : r.state = .plain (placeOf seg)

variable {mergeSlashes : Bool} {r : Uri} {dirs : List Bytes} {seg : Bytes}

theorem rewind_append (l rest : Bytes) (h : 47 ∉ l) : rewind (l ++ 47 :: rest) = some (47 :: rest) := by
  induction l with
  | nil => rfl
  | cons c l ih =>
      rw [List.mem_cons, not_or] at h
      rw [List.cons_append, rewind, if_neg (Ne.symm h.1), ih h.2]

-- Two dots go up one directory.
theorem rewind_up (dir : Bytes) (dirs : List Bytes) (hdir : dir ≠ [] ∧ 47 ∉ dir) :
    rewind ((render 47 (dir :: dirs) [46, 46]).reverse.drop 4) = some (render 47 dirs []).reverse := by
  obtain ⟨hne, hsep⟩ := hdir
  obtain ⟨front, last, hdir⟩ := (List.eq_nil_or_concat dir).resolve_left hne
  rw [List.concat_eq_append] at hdir
  subst hdir
  obtain ⟨path, hpath⟩ := render_ends (47 : UInt8) dirs
  have hfront : render 47 dirs (front ++ [last]) = path ++ 47 :: (front ++ [last]) := by
    rw [← List.nil_append (front ++ [last]), render_append, hpath]
    simp
  have hmem : (47 : UInt8) ∉ front.reverse := by
    rw [List.mem_reverse]
    exact fun h => hsep (List.mem_append_left _ h)
  rw [render, hfront, hpath]
  have hdrop : ((path ++ 47 :: (front ++ [last])) ++ [47, 46, 46]).reverse.drop 4 =
      front.reverse ++ 47 :: path.reverse := by simp
  rw [hdrop, rewind_append _ _ hmem]
  simp

theorem readOther_next (r : Uri) (place : Place) (ch : UInt8) (h : ch ≠ 35 ∧ ch ≠ 37 ∧ ch ≠ 63) :
    ∃ r', readOther r place ch = .next r' ∧ r'.state = .plain .usual ∧ r'.out = ch :: r.out ∧
      r'.uriExt = r.uriExt := by
  obtain ⟨h35, h37, h63⟩ := h
  rw [readOther, if_neg h37, if_neg h63, if_neg h35]
  split <;> exact ⟨_, rfl, rfl, rfl, rfl⟩

theorem Shows.push (h : Shows r dirs seg) {r' : Uri} {ch : UInt8} (hch : ch ≠ 47)
    (hstate : r'.state = .plain (placeOf (seg ++ [ch]))) (hout : r'.out = ch :: r.out) :
    Reads r' dirs (seg ++ [ch]) := by
  have hstep : step 47 46 dirs seg ch = some (dirs, seg ++ [ch]) := by rw [step, if_neg hch]
  refine ⟨⟨?_, h.proper.step hstep⟩, hstate⟩
  rw [hout, h.out, render_append, List.reverse_append]
  rfl

theorem placeOf_dot (seg : Bytes) (h : seg ≠ [] ∧ seg ≠ [46]) : placeOf (seg ++ [46]) = .usual := by
  have hdot : seg ++ [46] ≠ [46] := fun heq => h.1 (by simpa using heq)
  have hdots : seg ++ [46] ≠ [46, 46] := fun heq =>
    h.2 (@List.append_cancel_right _ seg [46] [46] heq)
  rw [placeOf, if_neg (by simp), if_neg hdot, if_neg hdots]

theorem readPlain_slash (h : Shows r dirs seg) :
    match enter 46 dirs seg with
    | none => readPlain true r (placeOf seg) 47 = .invalid
    | some dirs' => ∃ r', readPlain true r (placeOf seg) 47 = .next r' ∧ Reads r' dirs' [] := by
  have husual : isUsual 47 = false := not_usual (by simp)
  have hplace : ∀ r' : Uri, ∀ dirs', enter 46 dirs seg = some dirs' → r'.state = .plain .slash →
      r'.out = (render 47 dirs' []).reverse → Reads r' dirs' [] :=
    fun r' dirs' henter hstate hout => ⟨⟨hout, h.proper.enter henter⟩, hstate⟩
  by_cases hnil : seg = []
  · subst hnil
    exact ⟨r.goto .slash, by simp [readPlain, husual, placeOf], hplace _ dirs rfl rfl h.out⟩
  · by_cases hdot : seg = [46]
    · subst hdot
      refine ⟨_, by simp [readPlain, husual, placeOf]; rfl, hplace _ dirs rfl rfl ?_⟩
      have hout := h.out
      rw [← List.nil_append [46], render_append, List.reverse_append] at hout
      simp [Uri.goto, hout]
    · by_cases hdots : seg = [46, 46]
      · subst hdots
        cases dirs with
        | nil =>
            have hrewind : rewind (r.out.drop 4) = none := by
              rw [h.out]
              rfl
            simp [enter, readPlain, husual, placeOf, hrewind]
        | cons dir dirs =>
            have hrewind : rewind (r.out.drop 4) = some (render 47 dirs []).reverse := by
              rw [h.out]
              exact rewind_up dir dirs (h.proper.dirs dir (by simp))
            exact ⟨_, by simp [readPlain, husual, placeOf, hrewind]; rfl, hplace _ dirs rfl rfl rfl⟩
      · have henter : enter 46 dirs seg = some (seg :: dirs) := by simp [enter, hnil, hdot, hdots]
        rw [henter]
        refine ⟨_, by simp [readPlain, husual, placeOf, hnil, hdot, hdots]; rfl, hplace _ _ henter rfl ?_⟩
        rw [render_cons, List.reverse_append, ← h.out]
        rfl

theorem readPlain_dot (r : Uri) (seg : Bytes) :
    ∃ r', readPlain true r (placeOf seg) 46 = .next r' ∧ r'.state = .plain (placeOf (seg ++ [46])) ∧
      r'.out = 46 :: r.out := by
  have husual : isUsual 46 = false := not_usual (by simp)
  by_cases hnil : seg = []
  · subst hnil
    exact ⟨_, by simp [readPlain, husual, placeOf]; rfl, rfl, rfl⟩
  · by_cases hdot : seg = [46]
    · subst hdot
      exact ⟨_, by simp [readPlain, husual, placeOf]; rfl, rfl, rfl⟩
    · rw [placeOf_dot seg ⟨hnil, hdot⟩]
      by_cases hdots : seg = [46, 46]
      · subst hdots
        exact ⟨_, by simp [readPlain, husual, placeOf, readOther]; rfl, rfl, rfl⟩
      · exact ⟨_, by simp [readPlain, husual, placeOf, hnil, hdot, hdots]; rfl, rfl, rfl⟩

theorem readPlain_other (r : Uri) (place : Place) (ch : UInt8)
    (hch : ch ≠ 35 ∧ ch ≠ 37 ∧ ch ≠ 46 ∧ ch ≠ 47 ∧ ch ≠ 63) :
    ∃ r', readPlain mergeSlashes r place ch = .next r' ∧ r'.state = .plain .usual ∧ r'.out = ch :: r.out ∧
      r'.uriExt = r.uriExt := by
  obtain ⟨h35, h37, h46, h47, h63⟩ := hch
  by_cases husual : isUsual ch = true
  · exact ⟨(r.push ch).goto .usual, by simp only [readPlain, husual, if_true], rfl, rfl, rfl⟩
  · obtain ⟨r', hother, hkept⟩ := readOther_next r place ch ⟨h35, h37, h63⟩
    refine ⟨r', ?_, hkept⟩
    cases place <;> simpa only [readPlain, if_neg husual, if_neg h47, if_neg h46] using hother

-- One character of the path, escaped or not.
theorem readPlain_spec (h : Shows r dirs seg) (ch : UInt8) (hch : ch ≠ 35 ∧ ch ≠ 37 ∧ ch ≠ 63) :
    match step 47 46 dirs seg ch with
    | none => readPlain true r (placeOf seg) ch = .invalid
    | some (dirs', seg') => ∃ r', readPlain true r (placeOf seg) ch = .next r' ∧ Reads r' dirs' seg' := by
  obtain ⟨h35, h37, h63⟩ := hch
  by_cases h47 : ch = 47
  · subst h47
    have hslash := readPlain_slash h
    rw [step, if_pos rfl]
    cases henter : enter 46 dirs seg with
    | none =>
        rw [henter] at hslash
        exact hslash
    | some dirs' =>
        rw [henter] at hslash
        exact hslash
  · rw [step, if_neg h47]
    by_cases h46 : ch = 46
    · subst h46
      obtain ⟨r', hread, hstate, hout⟩ := readPlain_dot r seg
      exact ⟨r', hread, h.push h47 hstate hout⟩
    · obtain ⟨r', hread, hstate, hout, -⟩ := readPlain_other r (placeOf seg) ch ⟨h35, h37, h46, h47, h63⟩
      rw [← placeOf_push seg ch h46] at hstate
      exact ⟨r', hread, h.push h47 hstate hout⟩

-- The two ways of reading a hexadecimal digit.
theorem hexDigit_eq (c : UInt8) : hexDigit c =
    if 48 ≤ c ∧ c ≤ 57 then some (c - 48)
    else if 97 ≤ c ||| 0x20 ∧ c ||| 0x20 ≤ 102 then some ((c ||| 0x20) - 97 + 10) else none := by
  revert c
  exact byte_cases (by decide +kernel)

theorem turn_quoted (r : Uri) (saved : Place) (h : r.state = .quoted saved) (ch : UInt8) :
    turn mergeSlashes r ch =
      match hexDigit ch with
      | none => .invalid
      | some high => .next { r with quotedUri := true, state := .quotedSecond saved high } := by
  rw [hexDigit_eq, turn, h]
  simp only
  split
  · rfl
  · split <;> rfl

-- The lower half of a byte of two digits
theorem low_half (high low : UInt8) (hlow : low.toNat < 16) : (high * 16 + low).toNat % 16 = low.toNat := by
  simp only [UInt8.toNat_add, UInt8.toNat_mul, UInt8.reduceToNat]
  omega

-- The value of two digits, as the two branches for the second digit compute it.
theorem quotedSecond_value (high ch low : UInt8) (hlow : hexDigit ch = some low) :
    if 48 ≤ ch ∧ ch ≤ 57 then
      (high <<< 4) + ch - 48 = high * 16 + low ∧ high * 16 + low ≠ 63
    else
      (high <<< 4) + (ch ||| 0x20) - 97 + 10 = high * 16 + low ∧ high * 16 + low ∉ ([0, 35, 37] : Bytes) := by
  have hshift : high <<< 4 = high * 16 := byte_cases (P := fun c => c <<< 4 = c * 16) (by decide +kernel) high
  have hnot : ∀ v : UInt8, v.toNat % 16 ≠ low.toNat → low.toNat < 16 → high * 16 + low ≠ v := by
    rintro v hv hlt rfl
    exact hv (low_half high low hlt)
  rw [hexDigit_eq] at hlow
  split
  · rename_i hdigit
    rw [if_pos hdigit, Option.some.injEq] at hlow
    have hval : low.toNat = ch.toNat - 48 := by rw [← hlow, UInt8.toNat_sub_of_le _ _ hdigit.1]; rfl
    have hle : ch.toNat ≤ 57 := UInt8.le_iff_toNat_le.mp hdigit.2
    refine ⟨?_, hnot 63 ?_ (by omega)⟩
    · rw [hshift, ← hlow, UInt8.sub_eq_add_neg, UInt8.add_assoc, ← UInt8.sub_eq_add_neg]
    · rw [hval]
      exact fun h => by have : (15 : Nat) = ch.toNat - 48 := h; omega
  · rename_i hdigit
    rw [if_neg hdigit] at hlow
    split at hlow
    · rename_i hletter
      rw [Option.some.injEq] at hlow
      generalize ch ||| 0x20 = c at hletter hlow
      have hge : 97 ≤ c.toNat := UInt8.le_iff_toNat_le.mp hletter.1
      have hle : c.toNat ≤ 102 := UInt8.le_iff_toNat_le.mp hletter.2
      have hval : low.toNat = c.toNat - 97 + 10 := by
        have hsub : (c - 97).toNat = c.toNat - 97 := UInt8.toNat_sub_of_le _ _ hletter.1
        rw [← hlow, UInt8.toNat_add, hsub]
        exact Nat.mod_eq_of_lt (show c.toNat - 97 + 10 < 256 by omega)
      refine ⟨?_, ?_⟩
      · rw [hshift, ← hlow, UInt8.sub_eq_add_neg, UInt8.sub_eq_add_neg, UInt8.add_assoc, UInt8.add_assoc, UInt8.add_assoc]
      · have hletters : 10 ≤ low.toNat ∧ low.toNat < 16 := by omega
        have hne : ∀ v : UInt8, v.toNat % 16 < 10 → high * 16 + low ≠ v := fun v hv => hnot v (by omega) hletters.2
        simp [hne 0 (by decide), hne 35 (by decide), hne 37 (by decide)]
    · cases hlow

-- A decoded character that would be syntax.
theorem Shows.literal (h : Shows r dirs seg) (v : UInt8) (hv : v = 35 ∨ v = 37 ∨ v = 63) :
    match step 47 46 dirs seg v with
    | none => False
    | some (dirs', seg') => Reads ((r.push v).goto .usual) dirs' seg' := by
  have h47 : v ≠ 47 := by rcases hv with rfl | rfl | rfl <;> decide
  have h46 : v ≠ 46 := by rcases hv with rfl | rfl | rfl <;> decide
  rw [step, if_neg h47]
  exact h.push h47 (by rw [placeOf_push seg v h46]; rfl) rfl

theorem turn_quotedSecond_none (r : Uri) (saved : Place) (high ch : UInt8)
    (hstate : r.state = .quotedSecond saved high) (hlow : hexDigit ch = none) :
    turn mergeSlashes r ch = .invalid := by
  rw [hexDigit_eq] at hlow
  split at hlow
  · cases hlow
  · rename_i hdigit
    split at hlow
    · cases hlow
    · rename_i hletter
      simp only [turn, hstate, if_neg hdigit, if_neg hletter]

-- A second digit: the decoded character is refused, kept as it is or read as if it stood there.
theorem turn_decoded (r : Uri) (saved : Place) (high ch low : UInt8)
    (hstate : r.state = .quotedSecond saved high) (hlow : hexDigit ch = some low) :
    ∃ plus, turn mergeSlashes r ch =
      if high * 16 + low = 0 then .invalid
      else if high * 16 + low = 35 ∨ high * 16 + low = 37 ∨ high * 16 + low = 63 then
        .next ((r.push (high * 16 + low)).goto .usual)
      else readPlain mergeSlashes { r with plusInUri := plus } saved (high * 16 + low) := by
  have hvalue := quotedSecond_value high ch low hlow
  generalize high * 16 + low = v at hvalue
  obtain ⟨state, out, uriExt, plusInUri, quotedUri⟩ := r
  obtain rfl : state = .quotedSecond saved high := hstate
  by_cases hdigit : 48 ≤ ch ∧ ch ≤ 57
  · rw [if_pos hdigit] at hvalue
    obtain ⟨hv, h63⟩ := hvalue
    refine ⟨plusInUri, ?_⟩
    simp only [turn, if_pos hdigit, hv]
    by_cases hsyntax : v = 37 ∨ v = 35
    · have hv0 : v ≠ 0 := by rcases hsyntax with rfl | rfl <;> decide
      rw [if_pos hsyntax, if_neg hv0, if_pos (by tauto)]
    · rw [if_neg hsyntax, if_neg (c := v = 35 ∨ v = 37 ∨ v = 63) (by tauto)]
  · have hletter : 97 ≤ ch ||| 0x20 ∧ ch ||| 0x20 ≤ 102 := by
      rw [hexDigit_eq, if_neg hdigit] at hlow
      split at hlow
      · assumption
      · cases hlow
    rw [if_neg hdigit] at hvalue
    obtain ⟨hv, hmem⟩ := hvalue
    simp only [List.mem_cons, List.not_mem_nil, or_false, not_or] at hmem
    obtain ⟨hv0, h35, h37⟩ := hmem
    refine ⟨if v = 43 then true else plusInUri, ?_⟩
    simp only [turn, if_neg hdigit, if_pos hletter, hv]
    rw [if_neg hv0]
    by_cases h63 : v = 63
    · rw [if_pos h63, if_pos (by tauto)]
    · rw [if_neg h63, if_neg (c := v = 35 ∨ v = 37 ∨ v = 63) (by tauto)]
      split <;> rfl

-- A complete percent sequence.
theorem turn_quotedSecond (h : Shows r dirs seg) (high ch low : UInt8)
    (hstate : r.state = .quotedSecond (placeOf seg) high) (hlow : hexDigit ch = some low) :
    if high * 16 + low = 0 then turn true r ch = .invalid
    else
      match step 47 46 dirs seg (high * 16 + low) with
      | none => turn true r ch = .invalid
      | some (dirs', seg') => ∃ r', turn true r ch = .next r' ∧ Reads r' dirs' seg' := by
  obtain ⟨plus, hturn⟩ := @turn_decoded true r _ high ch low hstate hlow
  rw [hturn]
  generalize high * 16 + low = v
  by_cases hv0 : v = 0
  · rw [if_pos hv0, if_pos hv0]
  · rw [if_neg hv0, if_neg hv0]
    by_cases hsyntax : v = 35 ∨ v = 37 ∨ v = 63
    · have hliteral := h.literal v hsyntax
      rw [if_pos hsyntax]
      cases hstep : step 47 46 dirs seg v with
      | none =>
          rw [hstep] at hliteral
          exact hliteral.elim
      | some w =>
          rw [hstep] at hliteral
          exact ⟨_, rfl, hliteral⟩
    · rw [if_neg hsyntax]
      exact readPlain_spec (r := { r with plusInUri := plus }) ⟨h.out, h.proper⟩ v (by tauto)

theorem readPlain_percent (r : Uri) (place : Place) :
    readPlain mergeSlashes r place 37 = .next { r with state := .quoted place } := by
  have husual : isUsual 37 = false := not_usual (by simp)
  cases place <;> simp [readPlain, husual, readOther]

theorem readPlain_end (r : Uri) (place : Place) :
    readPlain mergeSlashes r place 63 = .args r ∧ readPlain mergeSlashes r place 35 = .done r := by
  have h63 : isUsual 63 = false := not_usual (by simp)
  have h35 : isUsual 35 = false := not_usual (by simp)
  cases place <;> simp [readPlain, h63, h35, readOther]

@[simp] theorem finish_uri (r : Uri) (argsStart args : Option Bytes) :
    (finish r argsStart args).uri = r.out.reverse := rfl

theorem finishArgs_uri (r : Uri) (rest : Bytes) : (finishArgs r rest).uri = r.out.reverse := by
  unfold finishArgs
  split <;> rfl

-- The loop's result agrees with a decoded path that is read from some directories and a segment.
def Agrees (result : Option Parsed) (dirs : List Bytes) (seg : Bytes) : Option (Bytes × Bool) → Prop
  | none => result = none
  | some (path, _) =>
      match walk 47 46 dirs seg path with
      | none => result = none
      | some (dirs', seg') => ∃ q, result = some q ∧ q.uri = render 47 dirs' seg'

theorem Agrees.cons {result : Option Parsed} {dirs dirs' : List Bytes} {seg seg' : Bytes} {c : UInt8}
    {d : Option (Bytes × Bool)} (hstep : step 47 46 dirs seg c = some (dirs', seg')) (h : Agrees result dirs' seg' d) :
    Agrees result dirs seg (d.map fun (path, cut) => (c :: path, cut)) := by
  cases d with
  | none => exact h
  | some d =>
      obtain ⟨path, cut⟩ := d
      simp only [Agrees, Option.map_some, walk, hstep, Option.bind_eq_bind, Option.bind_some] at h ⊢
      exact h

theorem Agrees.refused {dirs : List Bytes} {seg : Bytes} {c : UInt8} (d : Option (Bytes × Bool))
    (hstep : step 47 46 dirs seg c = none) :
    Agrees none dirs seg (d.map fun (path, cut) => (c :: path, cut)) := by
  cases d with
  | none => rfl
  | some d => simp [Agrees, walk, hstep]

theorem Reads.agrees_end (h : Reads r dirs seg) (q : Parsed) (hq : q.uri = r.out.reverse) (cut : Bool) :
    Agrees (some q) dirs seg (some ([], cut)) := by
  refine ⟨q, rfl, ?_⟩
  rw [hq, h.out, List.reverse_reverse]

theorem complexLoop_quoted (r : Uri) (saved : Place) (h : r.state = .quoted saved) (hi : UInt8) (rest : Bytes) :
    complexLoop mergeSlashes r (hi :: rest) =
      match hexDigit hi with
      | none => none
      | some high => complexLoop mergeSlashes { r with quotedUri := true, state := .quotedSecond saved high } rest := by
  rw [complexLoop, turn_quoted r saved h]
  cases hexDigit hi <;> rfl

theorem complexLoop_quotedSecond (h : Shows r dirs seg) (high lo : UInt8) (rest : Bytes)
    (hstate : r.state = .quotedSecond (placeOf seg) high)
    (hrest : ∀ r' dirs' seg', Reads r' dirs' seg' → Agrees (complexLoop true r' rest) dirs' seg' (decode rest)) :
    Agrees (complexLoop true r (lo :: rest)) dirs seg (do
      let low ← hexDigit lo
      if high * 16 + low = 0 then none
      else (decode rest).map fun (path, cut) => ((high * 16 + low) :: path, cut)) := by
  rw [complexLoop]
  cases hlow : hexDigit lo with
  | none =>
      rw [turn_quotedSecond_none r _ high lo hstate hlow]
      rfl
  | some low =>
      have hsecond := turn_quotedSecond h high lo low hstate hlow
      simp only [Option.bind_eq_bind, Option.bind_some]
      by_cases hzero : high * 16 + low = 0
      · rw [if_pos hzero] at hsecond ⊢
        rw [hsecond]
        rfl
      · rw [if_neg hzero] at hsecond ⊢
        cases hstep : step 47 46 dirs seg (high * 16 + low) with
        | none =>
            rw [hstep] at hsecond
            rw [hsecond]
            exact Agrees.refused _ hstep
        | some w =>
            rw [hstep] at hsecond
            obtain ⟨r', hnext, h'⟩ := hsecond
            rw [hnext]
            exact Agrees.cons hstep (hrest r' w.1 w.2 h')

-- What the loop makes of the rest of a URI.
theorem complexLoop_spec (n : Nat) (uri : Bytes) (hn : uri.length ≤ n) (h : Reads r dirs seg) :
    Agrees (complexLoop true r uri) dirs seg (decode uri) := by
  induction n generalizing uri r dirs seg with
  | zero =>
      obtain rfl := List.length_eq_zero_iff.mp (Nat.le_zero.mp hn)
      exact h.agrees_end _ rfl false
  | succ n ih =>
      cases uri with
      | nil => exact h.agrees_end _ rfl false
      | cons c rest =>
          simp only [List.length_cons] at hn
          have hturn : turn true r c = readPlain true r (placeOf seg) c := by rw [turn, h.state]
          rw [complexLoop, hturn, decode_cons]
          by_cases hend : c = 63 ∨ c = 35
          · rw [if_pos hend]
            rcases hend with rfl | rfl
            · rw [(readPlain_end r _).1]
              exact h.agrees_end _ (finishArgs_uri r rest) false
            · rw [(readPlain_end r _).2]
              exact h.agrees_end _ rfl false
          · rw [if_neg hend]
            rw [not_or] at hend
            by_cases h37 : c = 37
            · subst h37
              rw [if_pos rfl, readPlain_percent]
              have hquoted := @complexLoop_quoted true { r with state := .quoted (placeOf seg) } (placeOf seg) rfl
              match rest with
              | [] => exact h.agrees_end _ rfl true
              | [hi] =>
                  simp only [hquoted]
                  cases hexDigit hi with
                  | none => exact rfl
                  | some high =>
                      exact h.agrees_end (finish { r with quotedUri := true, state := .quotedSecond _ high } none none)
                        rfl true
              | hi :: lo :: rest =>
                  simp only [hquoted]
                  simp only [List.length_cons] at hn
                  cases hexDigit hi with
                  | none => exact rfl
                  | some high =>
                      have hshows : Shows { r with quotedUri := true, state := .quotedSecond (placeOf seg) high }
                        dirs seg := ⟨h.out, h.proper⟩
                      exact complexLoop_quotedSecond hshows high lo rest rfl
                        fun r' dirs' seg' h' => ih rest (by omega) h'
            · rw [if_neg h37]
              have hread := readPlain_spec h.toShows c ⟨hend.2, h37, hend.1⟩
              cases hstep : step 47 46 dirs seg c with
              | none =>
                  rw [hstep] at hread
                  rw [hread]
                  exact Agrees.refused _ hstep
              | some w =>
                  rw [hstep] at hread
                  obtain ⟨r', hnext, h'⟩ := hread
                  rw [hnext]
                  exact Agrees.cons hstep (ih rest (by omega) h')

-- The loop goes wrong only at the end of a URI: inside of a percent sequence, and behind a last segment that
-- is a dot or two dots.
def Meets (uri : Bytes) : Prop :=
  match decode uri with
  | none => True
  | some (path, cut) =>
      walk 47 46 [] [] path.tail = none ∨ cut = false ∧
        ∀ dirs seg, walk 47 46 [] [] path.tail = some (dirs, seg) → seg ≠ [46] ∧ seg ≠ [46, 46]

-- The first slash.
theorem parseComplexUri_slash (mergeSlashes : Bool) (text : Bytes) (plusInUri quotedUri : Bool) :
    parseComplexUri mergeSlashes (47 :: text) plusInUri quotedUri =
      complexLoop mergeSlashes ⟨.plain .slash, [47], none, plusInUri, quotedUri⟩ text := by
  have hfirst : turn mergeSlashes ⟨.plain .usual, [], none, plusInUri, quotedUri⟩ 47 =
      .next ⟨.plain .slash, [47], none, plusInUri, quotedUri⟩ := by
    have husual : isUsual 47 = false := not_usual (by simp)
    simp [turn, readPlain, husual, Uri.push, Uri.goto]
  rw [parseComplexUri, complexLoop, hfirst]

theorem parseComplexUri_agrees (text : Bytes) (plusInUri quotedUri : Bool) :
    Agrees (parseComplexUri true (47 :: text) plusInUri quotedUri) [] [] (decode text) := by
  rw [parseComplexUri_slash]
  exact complexLoop_spec text.length text (Nat.le_refl _) ⟨⟨rfl, ⟨by simp, by simp⟩⟩, rfl⟩

theorem decode_slash (text : Bytes) : decode (47 :: text) = (decode text).map fun (path, cut) => (47 :: path, cut) :=
  decode_cons 47 text

theorem render_last (dirs : List Bytes) (seg : Bytes) (c : UInt8) :
    (render 47 dirs (seg ++ [c])).getLast? = some c := by
  rw [render_append, List.getLast?_append, List.getLast?_singleton, Option.some_or]

-- A path that ends with a dot is not what a closed path looks like.
theorem close_dot (dirs : List Bytes) (seg : Bytes) (h : seg = [46] ∨ seg = [46, 46]) :
    close 47 46 dirs seg ≠ some (render 47 dirs seg) := by
  intro heq
  rw [close, if_pos h, Option.map_eq_some_iff] at heq
  obtain ⟨dirs', -, heq⟩ := heq
  obtain ⟨path, hpath⟩ := render_ends (47 : UInt8) dirs'
  have hlast : (render 47 dirs seg).getLast? = some 46 := by
    rcases h with rfl | rfl
    · exact render_last dirs [] 46
    · exact render_last dirs [46] 46
  rw [← heq, hpath, List.getLast?_append] at hlast
  simp at hlast

-- ngx_http_parse_complex_uri, with merge_slashes, on a URI that begins with a slash.
theorem parseComplexUri_normalises_iff (text : Bytes) (plusInUri quotedUri : Bool) :
    ((∀ q, parseComplexUri true (47 :: text) plusInUri quotedUri = some q → normalise (47 :: text) = some q.uri) ∧
      (normalise (47 :: text) = none → parseComplexUri true (47 :: text) plusInUri quotedUri = none)) ↔
      Meets (47 :: text) := by
  have hagrees := parseComplexUri_agrees text plusInUri quotedUri
  generalize parseComplexUri true (47 :: text) plusInUri quotedUri = result at hagrees
  rw [normalise, Meets, decode_slash]
  cases hdecode : decode text with
  | none =>
      rw [hdecode] at hagrees
      have hresult : result = none := hagrees
      simp [hresult]
  | some d =>
      obtain ⟨path, cut⟩ := d
      rw [hdecode] at hagrees
      simp only [Agrees] at hagrees
      simp only [Option.map_some, List.tail_cons]
      cases hwalk : walk 47 46 [] [] path with
      | none =>
          rw [hwalk] at hagrees
          simp [hagrees]
      | some w =>
          obtain ⟨dirs, seg⟩ := w
          rw [hwalk] at hagrees
          obtain ⟨q, rfl, hq⟩ := hagrees
          cases cut with
          | true => simp
          | false =>
              have hresolve : resolve 47 46 path = close 47 46 dirs seg := by rw [resolve_eq_walk, hwalk]; rfl
              simp only [List.tail_cons, hresolve, Option.some.injEq, Prod.mk.injEq, reduceCtorEq,
                true_and, false_or, and_imp, imp_false]
              constructor
              · intro ⟨hout, _⟩ dirs' seg' hdirs hseg
                have hclose := hout q rfl
                rw [hq] at hclose
                subst hdirs hseg
                exact ⟨fun hdot => close_dot dirs seg (.inl hdot) hclose,
                  fun hdots => close_dot dirs seg (.inr hdots) hclose⟩
              · intro hseg
                obtain ⟨hdot, hdots⟩ := hseg dirs seg rfl rfl
                have hclose : close 47 46 dirs seg = some q.uri := by
                  rw [close, if_neg (not_or.mpr ⟨hdot, hdots⟩), hq]
                refine ⟨fun q' hq' => by rw [← hq', hclose], ?_⟩
                rw [hclose]
                exact fun h => absurd h (Option.some_ne_none _)

-- A trailing dot stays, two of them leave the root, and a cut percent sequence is dropped.
theorem trailing_dots_stay :
    (parseComplexUri true (ngxString "/a/.") false false).map Parsed.uri = some (ngxString "/a/.") ∧
      normalise (ngxString "/a/.") = some (ngxString "/a/") ∧
      (parseComplexUri true (ngxString "/..") false false).map Parsed.uri = some (ngxString "/..") ∧
      normalise (ngxString "/..") = none ∧
      (parseComplexUri true (ngxString "/a%4") false false).map Parsed.uri = some (ngxString "/a") ∧
      normalise (ngxString "/a%4") = none := by
  decide

end Nginx.HttpParse
