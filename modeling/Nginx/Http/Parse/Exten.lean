import Nginx.Http.Parse.FastPath

namespace Nginx.HttpParse

-- for (i = r->uri.len - 1; i > 1; i--)
def setExtenLoop (uri : Bytes) : Nat → Bytes
  | i + 2 =>
      if uri[i + 2]? = some 46 ∧ uri[i + 1]? ≠ some 47 then uri.drop (i + 3)
      else if uri[i + 2]? = some 47 then []
      else setExtenLoop uri (i + 1)
  | _ => []

-- ngx_http_set_exten; the null string is the empty one.
def setExten (uri : Bytes) : Bytes := setExtenLoop uri (uri.length - 1)

-- The end of r->uri where it is not rewritten
def pathEnd (r : Request) : Nat :=
  match r.argsStart with
  | some args => args - 1
  | none => r.uriEnd.getD 0

-- r->uri and r->exten in ngx_http_process_request_line
def processRequestLine (mergeSlashes : Bool) (buf : Nat → UInt8) (r : Request) : Option (Bytes × Bytes) :=
  let first := r.uriStart.getD 0
  if r.complexUri || r.quotedUri then
    (parseComplexUri mergeSlashes (slice buf first (r.uriEnd.getD 0)) r.plusInUri r.quotedUri).map fun q =>
      (q.uri, q.exten.getD [])
  else
    some (slice buf first (pathEnd r),
      match r.uriExt with
      | some ext => slice buf ext (pathEnd r)
      | none => [])

-- A dot or a slash.
def Mark (path : Bytes) (i : Nat) : Prop := path[i]? = some 46 ∨ path[i]? = some 47

structure LastMark (path : Bytes) (i : Nat) : Prop where
  mark : Mark path i
  last : ∀ j, i < j → ¬Mark path j

variable {path front back : Bytes} {i : Nat}

theorem LastMark.lt (h : LastMark path i) : i < path.length := by
  rcases h.mark with hmark | hmark
  · exact (List.getElem?_eq_some_iff.mp hmark).1
  · exact (List.getElem?_eq_some_iff.mp hmark).1

theorem LastMark.unique {j : Nat} (h : LastMark path i) (h' : LastMark path j) : i = j := by
  rcases Nat.lt_trichotomy i j with hlt | heq | hlt
  · exact absurd h'.mark (h.last j hlt)
  · exact heq
  · exact absurd h.mark (h'.last i hlt)

theorem lastMark_append {c : UInt8} (front : Bytes) (hc : c = 46 ∨ c = 47) (hdot : 46 ∉ back) (hslash : 47 ∉ back) :
    LastMark (front ++ c :: back) front.length := by
  constructor
  · rw [Mark]
    simpa using hc
  · intro j hj hmark
    have hget : ∀ d, (front ++ c :: back)[j]? = some d → d ∈ back := by
      intro d hd
      rw [List.getElem?_append_right (by omega)] at hd
      obtain ⟨k, hk⟩ : ∃ k, j - front.length = k + 1 := ⟨j - front.length - 1, by omega⟩
      rw [hk, List.getElem?_cons_succ] at hd
      exact List.mem_of_getElem? hd
    rcases hmark with hmark | hmark
    · exact hdot (hget _ hmark)
    · exact hslash (hget _ hmark)

theorem setExtenLoop_skip {k : Nat} (hle : i ≤ k) (hnone : ∀ j, i < j → ¬Mark path j) :
    setExtenLoop path k = setExtenLoop path i := by
  induction k, hle using Nat.le_induction with
  | base => rfl
  | succ k hle ih =>
      rw [← ih]
      have hmark := hnone (k + 1) (by omega)
      rw [Mark, not_or] at hmark
      match k with
      | 0 => rfl
      | k + 1 => rw [setExtenLoop, if_neg fun h => hmark.1 h.1, if_neg hmark.2]

-- The loop stops at the last mark, or at the slash in front of it.
theorem setExten_mark (h : LastMark path i) :
    setExten path = if 2 ≤ i ∧ path[i]? = some 46 ∧ path[i - 1]? ≠ some 47 then path.drop (i + 1) else [] := by
  have hlt := h.lt
  rw [setExten, setExtenLoop_skip (by omega) h.last]
  match i with
  | 0 => rfl
  | 1 => rfl
  | i + 2 =>
      rw [setExtenLoop]
      by_cases hdot : path[i + 2]? = some 46 ∧ path[i + 1]? ≠ some 47
      · rw [if_pos hdot, if_pos ⟨by omega, hdot⟩]
      · have hright : (if 2 ≤ i + 2 ∧ path[i + 2]? = some 46 ∧ path[i + 1]? ≠ some 47 then path.drop (i + 3) else []) =
            [] := if_neg fun hall => hdot hall.2
        refine Eq.trans ?_ hright.symm
        rw [if_neg hdot]
        rcases h.mark with hmark | hmark
        · have hslash : path[i + 1]? = some 47 := by
            by_contra hne
            exact hdot ⟨hmark, hne⟩
          have hnot : ¬path[i + 2]? = some 47 := by
            rw [hmark]
            decide
          rw [if_neg hnot]
          match i with
          | 0 => rfl
          | i + 1 =>
              have hnot' : ¬(path[i + 2]? = some 46 ∧ path[i + 1]? ≠ some 47) := by
                rw [hslash]
                exact fun hdot' => absurd hdot'.1 (by decide)
              rw [setExtenLoop, if_neg hnot', if_pos hslash]
        · rw [if_pos hmark]

section Segment

variable {seg name ext : Bytes}

theorem setExten_plain (front : Bytes) (hdot : 46 ∉ seg) (hslash : 47 ∉ seg) : setExten (front ++ 47 :: seg) = [] := by
  have hlast := lastMark_append front (.inr rfl) hdot hslash
  rw [setExten_mark hlast, if_neg]
  rintro ⟨-, hmark, -⟩
  simp at hmark

theorem setExten_dot (front : Bytes) (hslash : 47 ∉ name ++ 46 :: ext) (hext : 46 ∉ ext) :
    setExten (front ++ 47 :: (name ++ 46 :: ext)) = if name = [] then [] else ext := by
  rw [List.mem_append, List.mem_cons, not_or, not_or] at hslash
  obtain ⟨hname, -, hback⟩ := hslash
  have hsplit : front ++ 47 :: (name ++ 46 :: ext) = (front ++ 47 :: name) ++ 46 :: ext := by simp
  have hlast := lastMark_append (front ++ 47 :: name) (.inl rfl) hext hback
  rw [hsplit, setExten_mark hlast]
  rcases List.eq_nil_or_concat name with rfl | ⟨name, d, rfl⟩
  · rw [if_pos rfl, if_neg]
    rintro ⟨-, -, hprev⟩
    refine hprev ?_
    simp
  · have hd : d ≠ 47 := fun heq => hname (by simp [heq])
    rw [if_neg (c := name.concat d = []) (by simp), if_pos]
    · rw [List.drop_append, List.drop_eq_nil_of_le (Nat.le_succ _), Nat.add_sub_cancel_left]
      rfl
    · refine ⟨by simp; omega, by simp, ?_⟩
      have hwhole : (front ++ 47 :: name.concat d) ++ 46 :: ext = (front ++ 47 :: name) ++ d :: 46 :: ext := by simp
      have hindex : (front ++ 47 :: name.concat d).length - 1 = (front ++ 47 :: name).length := by simp
      rw [hwhole, hindex, List.getElem?_append_right (Nat.le_refl _), Nat.sub_self, List.getElem?_cons_zero]
      simpa using hd

end Segment

-- The dots of a segment that uri_ext is set at: those that are read in sw_usual.
def Counts (front seg : Bytes) : Option Nat → Prop
  | none => ∀ name ext, seg = name ++ 46 :: ext → placeOf name ≠ .usual
  | some e => ∃ name ext, seg = name ++ 46 :: ext ∧ 46 ∉ ext ∧ placeOf name = .usual ∧
      e = (front ++ 47 :: (name ++ [46])).length

section Complex

variable {mergeSlashes : Bool} {r : Uri} {q : Parsed} {seg name ext : Bytes} {e : Option Nat}

theorem placeOf_eq_usual_iff (seg : Bytes) : placeOf seg = .usual ↔ seg ≠ [] ∧ seg ≠ [46] ∧ seg ≠ [46, 46] := by
  unfold placeOf
  split
  · simp [*]
  · split
    · simp [*]
    · split
      · simp [*]
      · simp [*]

theorem placeOf_longer (h : placeOf name = .usual) (ext : Bytes) : placeOf (name ++ 46 :: ext) = .usual := by
  rw [placeOf_eq_usual_iff] at h ⊢
  obtain ⟨hnil, hdot, -⟩ := h
  match name with
  | [] => exact absurd rfl hnil
  | [c] =>
      have hc : c ≠ 46 := by simpa using hdot
      simp [hc]
  | c :: d :: name => simp

theorem Counts.nil (front : Bytes) : Counts front [] none := by
  intro name ext heq
  simp at heq

theorem Counts.eq_none (h : Counts front seg e) (hplace : placeOf seg ≠ .usual) : e = none := by
  cases e with
  | none => rfl
  | some e =>
      obtain ⟨name, ext, rfl, -, husual, -⟩ := h
      exact absurd (placeOf_longer husual ext) hplace

theorem split_concat {c : UInt8} (h : seg ++ [c] = name ++ 46 :: ext) :
    seg = name ∧ c = 46 ∧ ext = [] ∨ ∃ ext', seg = name ++ 46 :: ext' ∧ ext = ext' ++ [c] := by
  rcases List.eq_nil_or_concat ext with rfl | ⟨ext, d, rfl⟩
  · obtain ⟨hname, hc⟩ := List.append_inj' h rfl
    exact .inl ⟨hname, List.singleton_inj.mp hc, rfl⟩
  · rw [List.concat_eq_append] at h ⊢
    have hsplit : seg ++ [c] = (name ++ 46 :: ext) ++ [d] := by simpa using h
    obtain ⟨hseg, hc⟩ := List.append_inj' hsplit rfl
    exact .inr ⟨ext, hseg, by rw [hc]⟩

theorem Counts.push (h : Counts front seg e) {c : UInt8} (hc : c ≠ 46) : Counts front (seg ++ [c]) e := by
  cases e with
  | none =>
      intro name ext heq
      rcases split_concat heq with ⟨-, hdot, -⟩ | ⟨ext', hseg, -⟩
      · exact absurd hdot hc
      · exact h name ext' hseg
  | some e =>
      obtain ⟨name, ext, rfl, hext, husual, he⟩ := h
      refine ⟨name, ext ++ [c], by simp, ?_, husual, he⟩
      simpa [hext] using hc.symm

theorem Counts.push_dot (h : Counts front seg none) (hplace : placeOf seg ≠ .usual) : Counts front (seg ++ [46]) none := by
  intro name ext heq
  rcases split_concat heq with ⟨rfl, -, -⟩ | ⟨ext', hseg, -⟩
  · exact hplace
  · exact h name ext' hseg

-- The output ends with a segment, and uri_ext stands behind the last of its dots that counts.
structure Tail (r : Uri) (front seg : Bytes) : Prop where
  out : r.out.reverse = front ++ 47 :: seg
  slash : 47 ∉ seg
  ext : Counts front seg r.uriExt

structure Stands (r : Uri) (front seg : Bytes) : Prop extends Tail r front seg where
  state : r.state = .plain (placeOf seg)

def Turn.Leads (seg : Bytes) : Turn → Prop
  | .next r => ∃ front, Stands r front seg
  | .invalid => True
  | .args _ | .done _ => False

-- The segment that one more byte of a path leaves.
def follow (seg : Bytes) (c : UInt8) : Bytes := if c = 47 then [] else seg ++ [c]

theorem follow_of_ne {c : UInt8} (hc : c ≠ 47) (seg : Bytes) : follow seg c = seg ++ [c] := if_neg hc

theorem Tail.push (h : Tail r front seg) {r' : Uri} {c : UInt8} (hc : c ≠ 47)
    (hstate : r'.state = .plain (placeOf (seg ++ [c]))) (hout : r'.out = c :: r.out)
    (hext : Counts front (seg ++ [c]) r'.uriExt) : (Turn.next r').Leads (follow seg c) := by
  rw [follow_of_ne hc]
  refine ⟨front, ⟨⟨?_, ?_, hext⟩, hstate⟩⟩
  · rw [hout, List.reverse_cons, h.out]
    simp
  · simpa [h.slash] using hc.symm

theorem rewind_slash {out out' : Bytes} (h : rewind out = some out') : ∃ path, out' = 47 :: path := by
  induction out with
  | nil => cases h
  | cons c out ih =>
      rw [rewind] at h
      split at h
      · rename_i hc
        cases h
        exact ⟨out, by rw [hc]⟩
      · exact ih h

theorem readPlain_leads_slash (h : Tail r front seg) : (readPlain mergeSlashes r (placeOf seg) 47).Leads [] := by
  have husual : isUsual 47 = false := not_usual (by simp)
  have hout : r.out = (front ++ 47 :: seg).reverse := by rw [← h.out, List.reverse_reverse]
  by_cases hnil : seg = []
  · subst hnil
    have hnone : r.uriExt = none := h.ext.eq_none (by decide)
    cases mergeSlashes with
    | true =>
        have hread : readPlain true r (placeOf []) 47 = .next (r.goto .slash) := by simp [readPlain, husual, placeOf]
        rw [hread]
        exact ⟨front, ⟨⟨h.out, h.slash, h.ext⟩, rfl⟩⟩
    | false =>
        have hread : readPlain false r (placeOf []) 47 = .next ((r.push 47).goto .slash) := by
          simp [readPlain, husual, placeOf]
        rw [hread]
        refine ⟨front ++ [47], ⟨⟨?_, by simp, ?_⟩, rfl⟩⟩
        · simp [Uri.push, Uri.goto, h.out]
        · rw [Uri.goto, Uri.push, hnone]
          exact Counts.nil _
  · by_cases hdot : seg = [46]
    · subst hdot
      have hnone : r.uriExt = none := h.ext.eq_none (by decide)
      have hread : readPlain mergeSlashes r (placeOf [46]) 47 = .next ({ r with out := r.out.tail }.goto .slash) := by
        simp [readPlain, husual, placeOf]
      rw [hread]
      refine ⟨front, ⟨⟨?_, by simp, ?_⟩, rfl⟩⟩
      · simp [Uri.goto, hout]
      · rw [Uri.goto, hnone]
        exact Counts.nil _
    · by_cases hdots : seg = [46, 46]
      · subst hdots
        have hnone : r.uriExt = none := h.ext.eq_none (by decide)
        cases hrewind : rewind (r.out.drop 4) with
        | none => simp [readPlain, husual, placeOf, hrewind, Turn.Leads]
        | some out =>
            have hread : readPlain mergeSlashes r (placeOf [46, 46]) 47 = .next ({ r with out := out }.goto .slash) := by
              simp [readPlain, husual, placeOf, hrewind]
            rw [hread]
            obtain ⟨path, rfl⟩ := rewind_slash hrewind
            refine ⟨path.reverse, ⟨⟨?_, by simp, ?_⟩, rfl⟩⟩
            · simp [Uri.goto]
            · rw [Uri.goto, hnone]
              exact Counts.nil _
      · have hread : readPlain mergeSlashes r (placeOf seg) 47 =
            .next (({ r with uriExt := none }.push 47).goto .slash) := by
          simp [readPlain, husual, placeOf, hnil, hdot, hdots]
        rw [hread]
        refine ⟨front ++ 47 :: seg, ⟨⟨?_, by simp, Counts.nil _⟩, rfl⟩⟩
        simp [Uri.push, Uri.goto, h.out]

theorem readPlain_leads_dot (h : Tail r front seg) :
    (readPlain mergeSlashes r (placeOf seg) 46).Leads (follow seg 46) := by
  have husual : isUsual 46 = false := not_usual (by simp)
  have h47 : (46 : UInt8) ≠ 47 := by decide
  by_cases hplace : placeOf seg = .usual
  · have hread : readPlain mergeSlashes r (placeOf seg) 46 =
        .next (({ r with uriExt := some (r.out.length + 1) }.push 46).goto .usual) := by
      simp [readPlain, husual, hplace]
    have hlonger := placeOf_longer hplace []
    rw [hread]
    refine h.push h47 (by rw [hlonger]; rfl) rfl ⟨seg, [], rfl, by simp, hplace, ?_⟩
    have hlength := congrArg List.length h.out
    rw [List.length_reverse] at hlength
    rw [hlength]
    simp only [List.length_append, List.length_cons, List.length_nil]
    omega
  · have hnone : r.uriExt = none := h.ext.eq_none hplace
    have hext : Counts front (seg ++ [46]) r.uriExt := by
      have hcounts := h.ext
      rw [hnone] at hcounts ⊢
      exact hcounts.push_dot hplace
    by_cases hnil : seg = []
    · subst hnil
      have hread : readPlain mergeSlashes r (placeOf []) 46 = .next ((r.push 46).goto .dot) := by
        simp [readPlain, husual, placeOf]
      rw [hread]
      exact h.push h47 rfl rfl hext
    · by_cases hdot : seg = [46]
      · subst hdot
        have hread : readPlain mergeSlashes r (placeOf [46]) 46 = .next ((r.push 46).goto .dotDot) := by
          simp [readPlain, husual, placeOf]
        rw [hread]
        exact h.push h47 rfl rfl hext
      · have hdots : seg = [46, 46] := by
          by_contra hdots
          exact hplace ((placeOf_eq_usual_iff seg).mpr ⟨hnil, hdot, hdots⟩)
        subst hdots
        have hread : readPlain mergeSlashes r (placeOf [46, 46]) 46 = .next ((r.push 46).goto .usual) := by
          simp [readPlain, husual, placeOf, readOther]
        rw [hread]
        exact h.push h47 rfl rfl hext

-- One character of the path, escaped or not.
theorem readPlain_leads (h : Tail r front seg) (ch : UInt8) (hch : ch ≠ 35 ∧ ch ≠ 37 ∧ ch ≠ 63) :
    (readPlain mergeSlashes r (placeOf seg) ch).Leads (follow seg ch) := by
  obtain ⟨h35, h37, h63⟩ := hch
  by_cases h47 : ch = 47
  · subst h47
    exact readPlain_leads_slash h
  · by_cases h46 : ch = 46
    · subst h46
      exact readPlain_leads_dot h
    · obtain ⟨r', hread, hstate, hout, hext⟩ :=
        @readPlain_other mergeSlashes r (placeOf seg) ch ⟨h35, h37, h46, h47, h63⟩
      rw [← placeOf_push seg ch h46] at hstate
      rw [hread]
      refine h.push h47 hstate hout ?_
      rw [hext]
      exact h.ext.push h46

theorem Tail.literal (h : Tail r front seg) (v : UInt8) (hv : v = 35 ∨ v = 37 ∨ v = 63) :
    (Turn.next ((r.push v).goto .usual)).Leads (follow seg v) := by
  have h47 : v ≠ 47 := by rcases hv with rfl | rfl | rfl <;> decide
  have h46 : v ≠ 46 := by rcases hv with rfl | rfl | rfl <;> decide
  exact h.push h47 (by rw [placeOf_push seg v h46]; rfl) rfl (h.ext.push h46)

-- A parsed URI whose path ends with a segment, with its extension.
def Ends (q : Parsed) (seg : Bytes) : Prop :=
  ∃ front e, q.uri = front ++ 47 :: seg ∧ 47 ∉ seg ∧ Counts front seg e ∧ q.exten = e.map fun i => q.uri.drop i

-- The same of the loop's result and of what is left of a decoded path.
def Follows (result : Option Parsed) (seg : Bytes) : Option (Bytes × Bool) → Prop
  | none => result = none
  | some (path, _) => ∀ q, result = some q → Ends q (path.foldl follow seg)

theorem Follows.cons {result : Option Parsed} {c : UInt8} {d : Option (Bytes × Bool)}
    (h : Follows result (follow seg c) d) : Follows result seg (d.map fun (path, cut) => (c :: path, cut)) := by
  cases d with
  | none => exact h
  | some d => exact h

theorem follows_none (seg : Bytes) (d : Option (Bytes × Bool)) : Follows none seg d := by
  cases d with
  | none => rfl
  | some d => exact fun q hq => absurd hq nofun

theorem Tail.follows_end (h : Tail r front seg) (hq : q.uri = r.out.reverse)
    (hexten : q.exten = r.uriExt.map fun i => r.out.reverse.drop i) (cut : Bool) :
    Follows (some q) seg (some ([], cut)) := by
  rintro q' hq'
  cases hq'
  refine ⟨front, r.uriExt, by rw [hq, h.out]; rfl, h.slash, h.ext, ?_⟩
  rw [hexten, hq]

theorem finishArgs_exten (r : Uri) (rest : Bytes) :
    (finishArgs r rest).exten = r.uriExt.map fun i => r.out.reverse.drop i := by
  unfold finishArgs
  split <;> rfl

-- A turn that goes on with the path, and the loop behind it
theorem complexLoop_leads {ch : UInt8} {rest : Bytes} {d : Option (Bytes × Bool)}
    (h : (turn mergeSlashes r ch).Leads seg)
    (hrest : ∀ r' front, Stands r' front seg → Follows (complexLoop mergeSlashes r' rest) seg d) :
    Follows (complexLoop mergeSlashes r (ch :: rest)) seg d := by
  rw [complexLoop]
  cases hturn : turn mergeSlashes r ch with
  | next r' =>
      rw [hturn] at h
      obtain ⟨front, hstands⟩ := h
      exact hrest r' front hstands
  | args r' =>
      rw [hturn] at h
      exact h.elim
  | done r' =>
      rw [hturn] at h
      exact h.elim
  | invalid => exact follows_none seg d

theorem complexLoop_follows_second (h : Tail r front seg) (high lo : UInt8) (rest : Bytes)
    (hstate : r.state = .quotedSecond (placeOf seg) high)
    (hrest : ∀ r' front' seg', Stands r' front' seg' → Follows (complexLoop mergeSlashes r' rest) seg' (decode rest)) :
    Follows (complexLoop mergeSlashes r (lo :: rest)) seg (do
      let low ← hexDigit lo
      if high * 16 + low = 0 then none
      else (decode rest).map fun (path, cut) => ((high * 16 + low) :: path, cut)) := by
  cases hlow : hexDigit lo with
  | none =>
      rw [complexLoop, turn_quotedSecond_none r _ high lo hstate hlow]
      rfl
  | some low =>
      obtain ⟨plus, hturn⟩ := @turn_decoded mergeSlashes r _ high lo low hstate hlow
      simp only [Option.bind_eq_bind, Option.bind_some]
      generalize high * 16 + low = v at hturn ⊢
      by_cases hv0 : v = 0
      · rw [complexLoop, hturn, if_pos hv0, if_pos hv0]
        rfl
      · rw [if_neg hv0] at hturn ⊢
        refine Follows.cons (complexLoop_leads ?_ fun r' front' h' => hrest r' front' _ h')
        rw [hturn]
        by_cases hsyntax : v = 35 ∨ v = 37 ∨ v = 63
        · rw [if_pos hsyntax]
          exact h.literal v hsyntax
        · rw [if_neg hsyntax]
          exact readPlain_leads (r := { r with plusInUri := plus }) ⟨h.out, h.slash, h.ext⟩ v (by tauto)

-- What the loop makes of the rest of a URI.
theorem complexLoop_follows (n : Nat) (uri : Bytes) (hn : uri.length ≤ n) (h : Stands r front seg) :
    Follows (complexLoop mergeSlashes r uri) seg (decode uri) := by
  induction n generalizing uri r front seg with
  | zero =>
      obtain rfl := List.length_eq_zero_iff.mp (Nat.le_zero.mp hn)
      exact h.follows_end rfl rfl false
  | succ n ih =>
      cases uri with
      | nil => exact h.follows_end rfl rfl false
      | cons c rest =>
          simp only [List.length_cons] at hn
          have hturn : turn mergeSlashes r c = readPlain mergeSlashes r (placeOf seg) c := by rw [turn, h.state]
          rw [decode_cons]
          by_cases hend : c = 63 ∨ c = 35
          · rw [if_pos hend, complexLoop, hturn]
            rcases hend with rfl | rfl
            · rw [(readPlain_end r _).1]
              exact h.follows_end (finishArgs_uri r rest) (finishArgs_exten r rest) false
            · rw [(readPlain_end r _).2]
              exact h.follows_end rfl rfl false
          · rw [if_neg hend]
            rw [not_or] at hend
            by_cases h37 : c = 37
            · subst h37
              rw [if_pos rfl, complexLoop, hturn, readPlain_percent]
              have hquoted := @complexLoop_quoted mergeSlashes { r with state := .quoted (placeOf seg) } (placeOf seg) rfl
              have htail : ∀ quoted state, Tail { r with quotedUri := quoted, state := state } front seg :=
                fun _ _ => ⟨h.out, h.slash, h.ext⟩
              rcases rest with _ | ⟨hi, _ | ⟨lo, rest⟩⟩
              · exact (htail _ _).follows_end rfl rfl true
              · simp only [hquoted]
                cases hexDigit hi with
                | none => exact rfl
                | some high => exact (htail true (.quotedSecond _ high)).follows_end rfl rfl true
              · simp only [hquoted]
                simp only [List.length_cons] at hn
                cases hexDigit hi with
                | none => exact rfl
                | some high =>
                    exact complexLoop_follows_second (htail true (.quotedSecond _ high)) high lo
                      rest rfl fun r' front' seg' h' => ih rest (by omega) h'
            · rw [if_neg h37]
              have hleads : (turn mergeSlashes r c).Leads (follow seg c) := by
                rw [hturn]
                exact readPlain_leads h.toTail c ⟨hend.2, h37, hend.1⟩
              exact Follows.cons (complexLoop_leads hleads fun r' front' h' => ih rest (by omega) h')

-- The bytes behind the last slash.
def lastSegment (path : Bytes) : Bytes := (path.reverse.takeWhile (· ≠ 47)).reverse

theorem lastSegment_follow (path : Bytes) : path.foldl follow [] = lastSegment path := by
  induction path using List.reverseRecOn with
  | nil => rfl
  | append_singleton path c ih =>
      rw [List.foldl_append, List.foldl_cons, List.foldl_nil, ih, lastSegment, lastSegment, List.reverse_append]
      by_cases hc : c = 47
      · subst hc
        rfl
      · have htake : ([c].reverse ++ path.reverse).takeWhile (· ≠ 47) = c :: path.reverse.takeWhile (· ≠ 47) := by
          rw [List.reverse_singleton, List.singleton_append, List.takeWhile_cons_of_pos (by simpa using hc)]
        rw [htake, follow_of_ne hc, List.reverse_cons]

theorem parseComplexUri_ends (mergeSlashes : Bool) (text : Bytes) (plusInUri quotedUri : Bool)
    (hq : parseComplexUri mergeSlashes (47 :: text) plusInUri quotedUri = some q) :
    ∃ path cut, decode (47 :: text) = some (path, cut) ∧ Ends q (lastSegment path) := by
  have hstands : Stands ⟨.plain .slash, [47], none, plusInUri, quotedUri⟩ [] [] :=
    ⟨⟨rfl, by simp, Counts.nil []⟩, rfl⟩
  have hfollows : Follows (complexLoop mergeSlashes ⟨.plain .slash, [47], none, plusInUri, quotedUri⟩ text) []
      (decode text) := complexLoop_follows text.length text (Nat.le_refl _) hstands
  rw [parseComplexUri_slash] at hq
  rw [decode_slash]
  cases hdecode : decode text with
  | none =>
      rw [hdecode] at hfollows
      exact absurd (hfollows.symm.trans hq) nofun
  | some d =>
      rw [hdecode] at hfollows
      refine ⟨47 :: d.1, d.2, rfl, ?_⟩
      rw [← lastSegment_follow]
      exact hfollows q hq

-- A segment that begins with the two dots or the three that are read without uri_ext, and has no other.
def Dotted (seg : Bytes) : Prop :=
  ∃ name, name ≠ [] ∧ 46 ∉ name ∧ (seg = 46 :: 46 :: name ∨ seg = 46 :: 46 :: 46 :: name)

theorem last_dot (h : 46 ∈ seg) : ∃ name ext, seg = name ++ 46 :: ext ∧ 46 ∉ ext := by
  obtain ⟨front, back, heq, hnot⟩ := List.eq_append_cons_of_mem (List.mem_reverse.mpr h)
  refine ⟨back.reverse, front.reverse, ?_, by simpa using hnot⟩
  rw [← List.reverse_reverse seg, heq]
  simp

theorem last_dot_unique {name' ext' : Bytes} (h : name ++ 46 :: ext = name' ++ 46 :: ext') (hext : 46 ∉ ext)
    (hext' : 46 ∉ ext') : name = name' ∧ ext = ext' := by
  rcases List.append_eq_append_iff.mp h with ⟨mid, rfl, hmid⟩ | ⟨mid, rfl, hmid⟩
  · cases mid with
    | nil => simpa using hmid
    | cons c mid =>
        obtain ⟨-, rfl⟩ := List.cons.inj hmid
        simp at hext
  · cases mid with
    | nil => simpa [eq_comm] using hmid
    | cons c mid =>
        obtain ⟨-, rfl⟩ := List.cons.inj hmid
        simp at hext'

theorem dotted_iff (hext : 46 ∉ ext) :
    Dotted (name ++ 46 :: ext) ↔ ext ≠ [] ∧ (name = [46] ∨ name = [46, 46]) := by
  constructor
  · rintro ⟨text, htext, hdot, heq | heq⟩
    · have hsplit : name ++ 46 :: ext = [46] ++ 46 :: text := heq
      obtain ⟨rfl, rfl⟩ := last_dot_unique hsplit hext hdot
      exact ⟨htext, .inl rfl⟩
    · have hsplit : name ++ 46 :: ext = [46, 46] ++ 46 :: text := heq
      obtain ⟨rfl, rfl⟩ := last_dot_unique hsplit hext hdot
      exact ⟨htext, .inr rfl⟩
  · rintro ⟨hne, rfl | rfl⟩
    · exact ⟨ext, hne, hext, .inl rfl⟩
    · exact ⟨ext, hne, hext, .inr rfl⟩

theorem Ends.exten_iff (h : Ends q seg) : q.exten.getD [] = setExten q.uri ↔ ¬Dotted seg := by
  obtain ⟨front, e, huri, hslash, hcounts, hexten⟩ := h
  by_cases hdot : 46 ∈ seg
  · obtain ⟨name, ext, rfl, hext⟩ := last_dot hdot
    have hset : setExten q.uri = if name = [] then [] else ext := by rw [huri, setExten_dot front hslash hext]
    have hget : q.exten.getD [] = if placeOf name = .usual then ext else [] := by
      cases e with
      | none => rw [hexten, if_neg (hcounts name ext rfl)]; rfl
      | some e =>
          obtain ⟨name', ext', heq, hext', husual, he⟩ := hcounts
          obtain ⟨rfl, rfl⟩ := last_dot_unique heq hext hext'
          rw [hexten, if_pos husual, Option.map_some, Option.getD_some, huri, he]
          have hsplit : front ++ 47 :: (name ++ 46 :: ext) = (front ++ 47 :: (name ++ [46])) ++ ext := by simp
          rw [hsplit, List.drop_left]
    rw [hset, hget, dotted_iff hext]
    simp only [placeOf_eq_usual_iff]
    by_cases hnil : name = []
    · simp [hnil]
    · by_cases hone : name = [46]
      · subst hone
        simp
      · by_cases htwo : name = [46, 46]
        · subst htwo
          simp
        · simp [hnil, hone, htwo]
  · have hnot : ¬Dotted seg := by
      rintro ⟨name, -, -, rfl | rfl⟩ <;> simp at hdot
    have hnone : e = none := by
      cases e with
      | none => rfl
      | some e =>
          obtain ⟨name, ext, rfl, -⟩ := hcounts
          simp at hdot
    rw [hexten, hnone, huri, setExten_plain front hdot hslash]
    simp [hnot]

end Complex

section Simple

variable {buf : Nat → UInt8} {us p q c m : Nat} {r : Request}

-- The last dot or slash of the path up to a position that a turn of the states for checked URIs has read.
structure LastChecked (buf : Nat → UInt8) (us p c : Nat) : Prop where
  lower : us ≤ c
  upper : c < p
  checked : Checked buf us c
  mark : buf c = 46 ∨ buf c = 47
  last : ∀ i, c < i → i < p → Checked buf us i → buf i ≠ 46 ∧ buf i ≠ 47

theorem LastChecked.extend (h : LastChecked buf us p c) (hp : Checked buf us p → buf p ≠ 46 ∧ buf p ≠ 47) :
    LastChecked buf us (p + 1) c := by
  refine ⟨h.lower, Nat.lt_succ_of_lt h.upper, h.checked, h.mark, fun i hi hle hchecked => ?_⟩
  by_cases hip : i = p
  · subst hip
    exact hp hchecked
  · exact h.last i hi (by omega) hchecked

theorem LastChecked.here (hle : us ≤ p) (hchecked : Checked buf us p) (hmark : buf p = 46 ∨ buf p = 47) :
    LastChecked buf us (p + 1) p :=
  ⟨hle, Nat.lt_succ_self p, hchecked, hmark, fun i hi hlt => by omega⟩

theorem LastChecked.over (h : LastChecked buf us q c) (hle : q ≤ p) (hspaces : ∀ i, q ≤ i → i < p → buf i = 32) :
    LastChecked buf us p c := by
  refine ⟨h.lower, Nat.lt_of_lt_of_le h.upper hle, h.checked, h.mark, fun i hi hlt hchecked => ?_⟩
  by_cases hiq : i < q
  · exact h.last i hi hiq hchecked
  · rw [hspaces i (by omega) hlt]
    decide

-- uri_ext stands behind the last checked mark, if that is a dot.
def Knows (buf : Nat → UInt8) (r : Request) (q : Nat) : Prop :=
  ∃ us c, r.uriStart = some us ∧ buf us = 47 ∧ LastChecked buf us q c ∧
    r.uriExt = if buf c = 46 then some (c + 1) else none

-- A URI that has to be read again
def Rewritten (buf : Nat → UInt8) (r : Request) (p : Nat) : Prop :=
  Flagged r ∧ ∃ us, r.uriStart = some us ∧ buf us = 47 ∧ us < p

def Found (buf : Nat → UInt8) (r : Request) (p : Nat) : Prop :=
  Rewritten buf r p ∨ ∃ q, r.argsStart = some (q + 1) ∧ q ≤ p ∧ Knows buf r q

def ExtSettled (buf : Nat → UInt8) (r : Request) : Prop :=
  ∃ ue, r.uriEnd = some ue ∧ (Rewritten buf r ue ∨ pathEnd r ≤ ue ∧ Knows buf r (pathEnd r))

def ExtInv (buf : Nat → UInt8) (p : Nat) (r : Request) : Prop :=
  match r.state with
  | .start | .method | .spacesBeforeUri | .schema | .schemaSlash | .schemaSlashSlash | .host | .port =>
      r.uriExt = none ∧ r.argsStart = none
  | .afterSlashInUri | .checkUri => r.argsStart = none ∧ Knows buf r p
  | .checkUriHttp09 => r.argsStart = none ∧ ∃ ue, r.uriEnd = some ue ∧ ue ≤ p ∧ Knows buf r ue ∧
      ∀ i, ue ≤ i → i < p → buf i = 32
  | .uri => Found buf r p
  | .http09 => ∃ ue, r.uriEnd = some ue ∧ ue ≤ p ∧ Found buf r ue
  | _ => ExtSettled buf r

def ExtMeets (buf : Nat → UInt8) (p : Nat) (t : LineTurn) : Prop := t.Meets (ExtInv buf (p + 1)) (ExtSettled buf)

theorem Rewritten.mono (h : Rewritten buf r q) (hle : q ≤ p) : Rewritten buf r p := by
  obtain ⟨hflag, us, hstart, hslash, hlt⟩ := h
  exact ⟨hflag, us, hstart, hslash, Nat.lt_of_lt_of_le hlt hle⟩

theorem Found.mono (h : Found buf r q) (hle : q ≤ p) : Found buf r p := by
  rcases h with hrewritten | ⟨k, hargs, hk, hknows⟩
  · exact .inl (hrewritten.mono hle)
  · exact .inr ⟨k, hargs, Nat.le_trans hk hle, hknows⟩

theorem Found.settled (h : Found buf r q) (hend : r.uriEnd = some q) : ExtSettled buf r := by
  refine ⟨q, hend, ?_⟩
  rcases h with hrewritten | ⟨k, hargs, hk, hknows⟩
  · exact .inl hrewritten
  · refine .inr ?_
    rw [pathEnd, hargs]
    exact ⟨hk, hknows⟩

theorem Knows.settled (h : Knows buf r q) (hargs : r.argsStart = none) (hend : r.uriEnd = some q) :
    ExtSettled buf r := by
  refine ⟨q, hend, .inr ?_⟩
  rw [pathEnd, hargs, hend]
  exact ⟨Nat.le_refl q, h⟩

theorem Knows.rewritten (h : Knows buf r q) (hle : q ≤ p) {r' : Request} (hstart : r'.uriStart = r.uriStart)
    (hflag : Flagged r') : Rewritten buf r' p := by
  obtain ⟨us, c, hus, hslash, hlast, -⟩ := h
  exact ⟨hflag, us, hstart.trans hus, hslash, Nat.lt_of_lt_of_le (Nat.lt_of_le_of_lt hlast.lower hlast.upper) hle⟩

theorem Found.rewritten (h : Found buf r q) (hle : q ≤ p) {r' : Request} (hstart : r'.uriStart = r.uriStart)
    (hflag : Flagged r') : Rewritten buf r' p := by
  rcases h with ⟨-, us, hus, hslash, hlt⟩ | ⟨k, -, hk, hknows⟩
  · exact ⟨hflag, us, hstart.trans hus, hslash, Nat.lt_of_lt_of_le hlt hle⟩
  · exact hknows.rewritten (Nat.le_trans hk hle) hstart hflag

theorem Knows.extend (h : Knows buf r p) (hbyte : buf p ≠ 46 ∧ buf p ≠ 47) : Knows buf r (p + 1) := by
  obtain ⟨us, c, hus, hslash, hlast, hext⟩ := h
  exact ⟨us, c, hus, hslash, hlast.extend fun _ => hbyte, hext⟩

-- The end of a path, and the first of the spaces behind it.
theorem Knows.space (h : Knows buf r p) (hargs : r.argsStart = none) (hspace : buf p = 32) :
    ExtInv buf (p + 1) { r with uriEnd := some p, state := .checkUriHttp09 } := by
  refine ⟨hargs, p, rfl, Nat.le_succ p, h, fun i hle hlt => ?_⟩
  obtain rfl : i = p := by omega
  exact hspace

theorem path_ext (hstate : r.state = .afterSlashInUri ∨ r.state = .checkUri) (hargs : r.argsStart = none)
    (h : Knows buf r (p + 1)) : ExtMeets buf p (.next r) := by
  rw [ExtMeets, LineTurn.Meets, ExtInv]
  rcases hstate with hs | hs
  · rw [hs]
    exact ⟨hargs, h⟩
  · rw [hs]
    exact ⟨hargs, h⟩

-- A byte that is no mark, one that makes the URI complex or quoted, and a mark.
theorem Knows.next (h : Knows buf r p) (hbyte : buf p ≠ 46 ∧ buf p ≠ 47) {r' : Request}
    (hstate : r'.state = .afterSlashInUri ∨ r'.state = .checkUri) (hargs : r'.argsStart = none)
    (hstart : r'.uriStart = r.uriStart) (hext : r'.uriExt = r.uriExt) : ExtMeets buf p (.next r') := by
  have hmore := h.extend hbyte
  refine path_ext hstate hargs ?_
  rw [Knows, hstart, hext]
  exact hmore

theorem Knows.again (h : Knows buf r p) {r' : Request} (hstate : r'.state = .uri) (hstart : r'.uriStart = r.uriStart)
    (hflag : Flagged r') : ExtMeets buf p (.next r') := by
  rw [ExtMeets, LineTurn.Meets, ExtInv, hstate]
  exact .inl (h.rewritten (Nat.le_succ p) hstart hflag)

theorem Knows.mark (h : Knows buf r p) (hspace : buf (p - 1) ≠ 32) (hbyte : buf p = 46 ∨ buf p = 47) {r' : Request}
    (hstate : r'.state = .afterSlashInUri ∨ r'.state = .checkUri) (hargs : r'.argsStart = none)
    (hstart : r'.uriStart = r.uriStart) (hext : r'.uriExt = if buf p = 46 then some (p + 1) else none) :
    ExtMeets buf p (.next r') := by
  obtain ⟨us, c, hus, hslash, hlast, -⟩ := h
  have hle : us ≤ p := Nat.le_of_lt (Nat.lt_of_le_of_lt hlast.lower hlast.upper)
  exact path_ext hstate hargs ⟨us, p, hstart.trans hus, hslash, .here hle (.inr hspace) hbyte, hext⟩

theorem afterSlash_ext (hstate : r.state = .afterSlashInUri) (hargs : r.argsStart = none) (h : Knows buf r p) :
    ExtMeets buf p (lineTurn buf r p) := by
  simp only [lineTurn, hstate]
  split
  · rename_i husual
    obtain ⟨-, -, -, h46, h47, -, -⟩ := usual_byte husual
    exact h.next ⟨h46, h47⟩ (.inr rfl) hargs rfl rfl
  · have hend : ExtSettled buf { r with uriEnd := some p } :=
      Knows.settled (r := { r with uriEnd := some p }) h hargs rfl
    refine readUriEnd_meets (h.space hargs) hend hend fun _ => ?_
    split
    · exact h.again rfl rfl (.inl rfl)
    · split
      · exact h.again rfl rfl (.inr rfl)
      · split
        · exact h.again rfl rfl (.inl rfl)
        · split
          · exact .inr ⟨p, rfl, Nat.le_succ p, h⟩
          · split
            · exact h.again rfl rfl (.inl rfl)
            · rename_i h46 _ h47 _ _
              split
              · exact h.next ⟨h46, h47⟩ (.inl rfl) hargs rfl rfl
              · split
                · trivial
                · exact h.next ⟨h46, h47⟩ (.inr rfl) hargs rfl rfl

theorem checkUri_ext (hstate : r.state = .checkUri) (hargs : r.argsStart = none) (h : Knows buf r p)
    (hspace : buf (p - 1) ≠ 32) : ExtMeets buf p (lineTurn buf r p) := by
  simp only [lineTurn, hstate]
  split
  · rename_i husual
    obtain ⟨-, -, -, h46, h47, -, -⟩ := usual_byte husual
    exact h.next ⟨h46, h47⟩ (.inr hstate) hargs rfl rfl
  · have hend : ExtSettled buf { r with uriEnd := some p } :=
      Knows.settled (r := { r with uriEnd := some p }) h hargs rfl
    refine readUriEnd_meets (h.space hargs) hend hend fun _ => ?_
    split
    · rename_i h47
      exact h.mark hspace (.inr h47) (.inl rfl) hargs rfl (by rw [if_neg (by rw [h47]; decide)])
    · split
      · rename_i h46
        exact h.mark hspace (.inl h46) (.inr rfl) hargs rfl (by rw [if_pos h46])
      · rename_i h47 h46
        split
        · exact h.again rfl rfl (.inr rfl)
        · split
          · exact .inr ⟨p, rfl, Nat.le_succ p, h⟩
          · split
            · exact h.again rfl rfl (.inl rfl)
            · split
              · exact h.next ⟨h46, h47⟩ (.inr rfl) hargs rfl rfl
              · split
                · trivial
                · exact h.next ⟨h46, h47⟩ (.inr hstate) hargs rfl rfl

theorem checkUriHttp09_ext {ue : Nat} (hstate : r.state = .checkUriHttp09) (hargs : r.argsStart = none)
    (hend : r.uriEnd = some ue) (hle : ue ≤ p) (h : Knows buf r ue) (hspaces : ∀ i, ue ≤ i → i < p → buf i = 32)
    (hspace : buf (p - 1) = 32) : ExtMeets buf p (lineTurn buf r p) := by
  have hsettled : ExtSettled buf r := h.settled hargs hend
  simp only [lineTurn, hstate]
  refine readSpaces_meets (fun h32 => ?_) hsettled hsettled hsettled fun _ => ?_
  · rw [ExtInv, hstate]
    refine ⟨hargs, ue, hend, Nat.le_succ_of_le hle, h, fun i hi hlt => ?_⟩
    by_cases hip : i = p
    · rw [hip, h32]
    · exact hspaces i hi (by omega)
  · obtain ⟨us, c, hus, hslash, hlast, hext⟩ := h
    have hblind : ¬Checked buf us p := by
      rintro (heq | hne)
      · have := hlast.lower
        have := hlast.upper
        omega
      · exact hne hspace
    exact ⟨hargs, us, c, hus, hslash, (hlast.over hle hspaces).extend fun hchecked => absurd hchecked hblind, hext⟩

theorem uri_ext (hstate : r.state = .uri) (h : Found buf r p) : ExtMeets buf p (lineTurn buf r p) := by
  have hself : ExtInv buf (p + 1) r := by
    rw [ExtInv, hstate]
    exact h.mono (Nat.le_succ p)
  have hfound : ∀ state, Found buf { r with uriEnd := some p, state := state } p := fun _ => h
  have hend : ∀ state, ExtSettled buf { r with uriEnd := some p, state := state } := fun state =>
    (hfound state).settled rfl
  simp only [lineTurn, hstate]
  split
  · exact hself
  · refine readUriEnd_meets (fun _ => ⟨p, rfl, Nat.le_succ p, hfound .http09⟩) (hend r.state) (hend r.state) fun _ => ?_
    split
    · exact .inl (h.rewritten (Nat.le_succ p) rfl (.inl rfl))
    · split
      · trivial
      · exact hself

theorem http09_ext {ue : Nat} (hstate : r.state = .http09) (hend : r.uriEnd = some ue) (hle : ue ≤ p)
    (h : Found buf r ue) : ExtMeets buf p (lineTurn buf r p) := by
  have hsettled : ExtSettled buf r := h.settled hend
  simp only [lineTurn, hstate]
  refine readSpaces_meets (fun _ => ?_) hsettled hsettled hsettled fun _ => ?_
  · rw [ExtInv, hstate]
    exact ⟨ue, hend, Nat.le_succ_of_le hle, h⟩
  · exact h.mono (Nat.le_succ_of_le hle)

-- The first slash of a path.
theorem first_ext (hslash : buf p = 47) {r' : Request} (hstate : r'.state = .afterSlashInUri)
    (hstart : r'.uriStart = some p) (hnone : r'.uriExt = none ∧ r'.argsStart = none) :
    ExtMeets buf p (.next r') := by
  rw [ExtMeets, LineTurn.Meets, ExtInv, hstate]
  have hlast : LastChecked buf p (p + 1) p := .here (Nat.le_refl p) (.inl rfl) (.inr hslash)
  refine ⟨hnone.2, p, p, hstart, hslash, hlast, ?_⟩
  rw [hnone.1, if_neg (by rw [hslash]; decide)]

theorem singleSlash_ext {se : Nat} (hse : r.schemaEnd = some se) (hslash : buf (se + 1) = 47)
    (hnone : r.uriExt = none ∧ r.argsStart = none) : ExtSettled buf r.singleSlash := by
  have hlast : LastChecked buf (se + 1) (se + 2) (se + 1) := .here (Nat.le_refl _) (.inl rfl) (.inr hslash)
  have hend : pathEnd r.singleSlash = se + 2 := by simp [pathEnd, Request.singleSlash, hse, hnone.2]
  refine ⟨se + 2, by simp [Request.singleSlash, hse], .inr ?_⟩
  rw [hend]
  refine ⟨Nat.le_refl _, se + 1, se + 1, by simp [Request.singleSlash, hse], hslash, hlast, ?_⟩
  simp [Request.singleSlash, hnone.1, hslash]

-- The states in front of the URI.
theorem early_ext (hnone : r.uriExt = none ∧ r.argsStart = none) (hstate : r.state ∈ [LineState.start, .method,
    .spacesBeforeUri, .schema, .schemaSlash, .schemaSlashSlash, .host, .port]) : ExtMeets buf p (.next r) := by
  simp only [List.mem_cons, List.not_mem_nil, or_false] at hstate
  rw [ExtMeets, LineTurn.Meets, ExtInv]
  rcases hstate with hs | hs | hs | hs | hs | hs | hs | hs <;> (rw [hs]; exact hnone)

-- The states behind it.
theorem version_ext (h : ExtSettled buf r) (hstate : r.state ∈ [LineState.firstMajorDigit, .majorDigit, .firstMinorDigit,
    .minorDigit, .spacesAfterDigit, .almostDone]) : ExtMeets buf p (lineTurn buf r p) := by
  have hself : ExtInv buf (p + 1) r := by
    simp only [List.mem_cons, List.not_mem_nil, or_false] at hstate
    rcases hstate with hs | hs | hs | hs | hs | hs <;> (rw [ExtInv, hs]; exact h)
  simp only [List.mem_cons, List.not_mem_nil, or_false] at hstate
  rcases hstate with hs | hs | hs | hs | hs | hs <;> simp only [lineTurn, hs] <;>
    repeat' split
  all_goals first | exact h | exact hself | trivial

theorem lineTurn_ext (hline : LineInv buf p r) (h : ExtInv buf p r) : ExtMeets buf p (lineTurn buf r p) := by
  have hself := h
  unfold LineInv at hline
  unfold ExtInv at h
  cases hstate : r.state <;> simp only [hstate] at hline h
  case start =>
    simp only [lineTurn, hstate]
    split
    · exact early_ext h (by simp)
    · split
      · trivial
      · exact h
  case method =>
    simp only [lineTurn, hstate]
    split
    · exact h
    · split
      · trivial
      · exact early_ext h (by simp [hstate])
  case spacesBeforeUri =>
    simp only [lineTurn, hstate]
    split
    · rename_i h47
      exact first_ext h47 rfl rfl h
    · split
      · exact h
      · split
        · exact early_ext h (by simp [hstate])
        · trivial
  case schema =>
    simp only [lineTurn, hstate]
    split
    · exact early_ext h (by simp [hstate])
    · split
      · exact h
      · trivial
  case schemaSlash =>
    simp only [lineTurn, hstate]
    exact expectLine_meets fun _ => h
  case schemaSlashSlash =>
    simp only [lineTurn, hstate]
    split
    · exact h
    · trivial
  case host =>
    obtain ⟨se, hse, hslash⟩ := hline
    have hnext : ExtMeets buf p (.next r) := early_ext h (by simp [hstate])
    simp only [lineTurn, hstate]
    split
    · exact hnext
    · split
      · exact hnext
      · split
        · exact h
        · split
          · rename_i h47
            exact first_ext h47 rfl rfl h
          · split
            · exact singleSlash_ext (r := { r with hostEnd := some p, state := .host }) hse hslash h
            · trivial
  case port =>
    obtain ⟨se, hse, hslash⟩ := hline
    simp only [lineTurn, hstate]
    split
    · exact early_ext h (by simp [hstate])
    · split
      · rename_i h47
        exact first_ext h47 rfl rfl h
      · split
        · exact singleSlash_ext (r := { r with portEnd := some p, state := .port }) hse hslash h
        · trivial
  case afterSlashInUri => exact afterSlash_ext hstate h.1 h.2
  case checkUri =>
    obtain ⟨us, -, -, hspace, -⟩ := hline
    exact checkUri_ext hstate h.1 h.2 hspace
  case checkUriHttp09 =>
    obtain ⟨us, ue, -, -, -, -, -, hspace⟩ := hline
    obtain ⟨hargs, ue, hend, hle, hknows, hspaces⟩ := h
    exact checkUriHttp09_ext hstate hargs hend hle hknows hspaces hspace
  case uri => exact uri_ext hstate h
  case http09 =>
    obtain ⟨ue, hend, hle, hfound⟩ := h
    exact http09_ext hstate hend hle hfound
  case hostHttp09 =>
    simp only [lineTurn, hstate]
    refine readSpaces_meets (fun _ => ?_) h h h fun _ => trivial
    rw [ExtInv, hstate]
    exact h
  case httpH =>
    simp only [lineTurn, hstate]
    exact expectLine_meets fun _ => h
  case httpHT =>
    simp only [lineTurn, hstate]
    exact expectLine_meets fun _ => h
  case httpHTT =>
    simp only [lineTurn, hstate]
    exact expectLine_meets fun _ => h
  case httpHTTP =>
    simp only [lineTurn, hstate]
    exact expectLine_meets fun _ => h
  all_goals exact version_ext h (by simp [hstate])

theorem LineTurn.Meets.and {I I' S S' : Request → Prop} {t : LineTurn} (h : t.Meets I S) (h' : t.Meets I' S') :
    t.Meets (fun r => I r ∧ I' r) (fun r => S r ∧ S' r) := by
  cases t with
  | next r => exact ⟨h, h'⟩
  | done r => exact ⟨h, h'⟩
  | fail rc r => trivial

theorem feed_ext (lasts : List Nat) (hrun : feed buf lasts 0 newRequest = (.ok, r)) : ExtSettled buf r := by
  have hturn : ∀ p r, LineInv buf p r ∧ ExtInv buf p r →
      (lineTurn buf r p).Meets (fun r => LineInv buf (p + 1) r ∧ ExtInv buf (p + 1) r)
        (fun r => Settled buf r ∧ ExtSettled buf r) := fun p r h =>
    LineTurn.Meets.and (lineTurn_inv h.1) (lineTurn_ext h.1 h.2)
  have hnew : LineInv buf 0 newRequest ∧ ExtInv buf 0 newRequest := ⟨trivial, rfl, rfl⟩
  exact (feed_meets (I := fun p r => LineInv buf p r ∧ ExtInv buf p r) hturn (fun _ _ h => h) lasts hnew
    hrun).2

end Simple

section Marks

variable {buf : Nat → UInt8} {us q c m : Nat} {r : Request}

instance : DecidablePred (Mark path) := fun i =>
  inferInstanceAs (Decidable (path[i]? = some 46 ∨ path[i]? = some 47))

theorem Mark.exists_last (h : Mark path i) : ∃ m, LastMark path m := by
  have hlt : i < path.length := by
    rcases h with hmark | hmark
    · exact (List.getElem?_eq_some_iff.mp hmark).1
    · exact (List.getElem?_eq_some_iff.mp hmark).1
  refine ⟨Nat.findGreatest (Mark path) path.length, Nat.findGreatest_spec (Nat.le_of_lt hlt) h, fun j hj hmark => ?_⟩
  by_cases hle : j ≤ path.length
  · exact Nat.findGreatest_is_greatest hj hle hmark
  · rw [Mark, List.getElem?_eq_none (by omega)] at hmark
    simp at hmark

-- The byte directly behind a space is not looked at.
def Looked (path : Bytes) (i : Nat) : Prop := i = 0 ∨ path[i - 1]? ≠ some 32

structure LastLooked (path : Bytes) (i : Nat) : Prop where
  mark : Mark path i
  looked : Looked path i
  last : ∀ j, i < j → Mark path j → ¬Looked path j

-- The last mark is the last one that is looked at, or both of them are without an extension.
def SameExten (path : Bytes) : Prop :=
  ∃ m c, LastMark path m ∧ LastLooked path c ∧
    if c = m then path[m]? = some 47 ∨ path[m - 1]? ≠ some 47 ∨ m + 1 = path.length
    else path[c]? = some 47 ∧ (path[m]? = some 47 ∨ m + 1 = path.length)

theorem LastLooked.unique (h : LastLooked path c) (h' : LastLooked path i) : c = i := by
  rcases Nat.lt_trichotomy c i with hlt | heq | hlt
  · exact absurd h'.looked (h.last i hlt h'.mark)
  · exact heq
  · exact absurd h.looked (h'.last c hlt h.mark)

-- The extension behind the last mark that is looked at, against the one behind the last mark.
theorem exten_marks (hfirst : path[0]? = some 47) (hm : LastMark path m) (hc : LastLooked path c) :
    (if path[c]? = some 46 then path.drop (c + 1) else []) = setExten path ↔
      if c = m then path[m]? = some 47 ∨ path[m - 1]? ≠ some 47 ∨ m + 1 = path.length
      else path[c]? = some 47 ∧ (path[m]? = some 47 ∨ m + 1 = path.length) := by
  have hlt := hm.lt
  rw [setExten_mark hm]
  by_cases heq : c = m
  · subst heq
    rw [if_pos rfl]
    rcases hm.mark with hdot | hslash
    · rw [if_pos hdot]
      have hne : c ≠ 0 := fun h0 => by
        rw [h0, hfirst] at hdot
        cases hdot
      by_cases hprev : path[c - 1]? = some 47
      · rw [if_neg fun h => h.2.2 hprev, hdot, List.drop_eq_nil_iff]
        simp only [hprev, ne_eq, not_true_eq_false, false_or, Option.some.injEq]
        constructor
        · exact fun hle => .inr (by omega)
        · rintro (h46 | hlen)
          · exact absurd h46 (by decide)
          · omega
      · have hone : c ≠ 1 := fun h1 => hprev (by rw [h1]; exact hfirst)
        rw [if_pos ⟨by omega, hdot, hprev⟩]
        exact iff_of_true rfl (.inr (.inl hprev))
    · have hnot : ¬path[c]? = some 46 := by
        rw [hslash]
        decide
      rw [if_neg hnot, if_neg fun h => hnot h.2.1]
      exact iff_of_true rfl (.inl hslash)
  · have hcm : c < m := by
      rcases Nat.lt_trichotomy c m with hlt | heq' | hlt
      · exact hlt
      · exact absurd heq' heq
      · exact absurd hc.mark (hm.last c hlt)
    have hblind := hc.last m hcm hm.mark
    rw [Looked, not_or, not_not] at hblind
    obtain ⟨hne, hspace⟩ := hblind
    have hone : m ≠ 1 := fun h1 => by
      rw [h1, hfirst] at hspace
      cases hspace
    have hprev : path[m - 1]? ≠ some 47 := by
      rw [hspace]
      decide
    rw [if_neg heq]
    rcases hc.mark with hdot | hslash
    · have hnot : ¬path[c]? = some 47 := by
        rw [hdot]
        decide
      rw [if_pos hdot]
      refine iff_of_false (fun h => ?_) fun h => hnot h.1
      have hlength := congrArg List.length h
      split at hlength
      · simp only [List.length_drop] at hlength
        omega
      · simp only [List.length_drop, List.length_nil] at hlength
        omega
    · have hnot : ¬path[c]? = some 46 := by
        rw [hslash]
        decide
      rw [if_neg hnot]
      rcases hm.mark with hdot | hslash'
      · rw [if_pos ⟨by omega, hdot, hprev⟩, eq_comm, List.drop_eq_nil_iff]
        constructor
        · exact fun hle => ⟨hslash, .inr (by omega)⟩
        · rintro ⟨-, h47 | hlen⟩
          · rw [hdot] at h47
            exact absurd (Option.some.inj h47) (by decide)
          · omega
      · have hnot' : ¬path[m]? = some 46 := by
          rw [hslash']
          decide
        rw [if_neg fun h => hnot' h.2.1]
        exact iff_of_true rfl ⟨hslash, .inl hslash'⟩

theorem exten_sameExten_iff (hfirst : path[0]? = some 47) (hc : LastLooked path c) :
    (if path[c]? = some 46 then path.drop (c + 1) else []) = setExten path ↔ SameExten path := by
  obtain ⟨m, hm⟩ := hc.mark.exists_last
  rw [exten_marks hfirst hm hc]
  constructor
  · exact fun h => ⟨m, c, hm, hc, h⟩
  · rintro ⟨m', c', hm', hc', h⟩
    rw [hm.unique hm', hc.unique hc']
    exact h

-- The same marks in the buffer
theorem slice_get {last : Nat} (h : us + i < last) : (slice buf us last)[i]? = some (buf (us + i)) := by
  rw [slice_getElem?, if_pos (by omega)]

theorem slice_mark_iff {last : Nat} :
    Mark (slice buf us last) i ↔ us + i < last ∧ (buf (us + i) = 46 ∨ buf (us + i) = 47) := by
  rw [Mark, slice_getElem?]
  by_cases hlt : i < last - us
  · rw [if_pos hlt, Option.some.injEq, Option.some.injEq]
    exact ⟨fun h => ⟨by omega, h⟩, fun h => h.2⟩
  · rw [if_neg hlt]
    constructor
    · rintro (h | h) <;> cases h
    · exact fun h => absurd h.1 (by omega)

theorem slice_looked_iff {last : Nat} (h : us + i < last) :
    Looked (slice buf us last) i ↔ Checked buf us (us + i) := by
  rw [Looked, Checked]
  cases i with
  | zero => simp
  | succ i =>
      rw [Nat.add_sub_cancel, slice_get (by omega), ← Nat.add_assoc, Nat.add_sub_cancel]
      have hne : us + i + 1 ≠ us := by omega
      simp [hne]

theorem LastChecked.lastLooked (h : LastChecked buf us q c) : LastLooked (slice buf us q) (c - us) := by
  have hadd : us + (c - us) = c := Nat.add_sub_cancel' h.lower
  have hlt : us + (c - us) < q := hadd.symm ▸ h.upper
  refine ⟨slice_mark_iff.mpr ⟨hlt, ?_⟩, (slice_looked_iff hlt).mpr ?_, fun j hj hmark hlooked => ?_⟩
  · rw [hadd]
    exact h.mark
  · rw [hadd]
    exact h.checked
  · obtain ⟨hjlt, hbyte⟩ := slice_mark_iff.mp hmark
    obtain ⟨hdot, hslash⟩ := h.last (us + j) (by omega) hjlt ((slice_looked_iff hjlt).mp hlooked)
    exact hbyte.elim hdot hslash

theorem slice_drop {first last : Nat} (hle : us ≤ first) (hlast : first ≤ last) :
    slice buf first last = (slice buf us last).drop (first - us) := by
  rw [slice_append hle hlast, ← slice_length buf us first, List.drop_left]

-- The extension of a URI that is not read again
theorem Knows.exten_iff (h : Knows buf r q) :
    ∃ us, r.uriStart = some us ∧
      ((match r.uriExt with
        | some ext => slice buf ext q
        | none => []) = setExten (slice buf us q) ↔ SameExten (slice buf us q)) := by
  obtain ⟨us, c, hstart, hslash, hlast, hext⟩ := h
  have hlower := hlast.lower
  have hupper := hlast.upper
  refine ⟨us, hstart, ?_⟩
  have hfirst : (slice buf us q)[0]? = some 47 := by rw [slice_get (by omega), Nat.add_zero, hslash]
  have hget : (slice buf us q)[c - us]? = some (buf c) := by rw [slice_get (by omega), Nat.add_sub_cancel' hlower]
  rw [← exten_sameExten_iff hfirst hlast.lastLooked, hget, hext]
  by_cases hdot : buf c = 46
  · rw [if_pos hdot, if_pos (congrArg some hdot)]
    dsimp only
    have hindex : c + 1 - us = c - us + 1 := by omega
    rw [slice_drop (Nat.le_succ_of_le hlower) hupper, hindex]
  · rw [if_neg hdot, if_neg fun heq => hdot (Option.some.inj heq)]

end Marks

end Nginx.HttpParse
