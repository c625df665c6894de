import Nginx.Http.Parse.Normalise
import Nginx.Http.Parse.RequestLine
import Nginx.Library.Segments

namespace Nginx.HttpParse

inductive UnsafeRc where
  | ok
  | error
deriving DecidableEq

-- What ngx_http_parse_unsafe_uri returns and leaves: uri->len, args as a position with a length when it is set, whether
-- the URI is logged, and the positions that have been read.
structure UnsafeUri where
  rc : UnsafeRc
  len : Nat
  args : Option (Nat × Nat)
  logged : Bool
  reads : List Nat
deriving DecidableEq

def UnsafeUri.read (u : UnsafeUri) (reads : List Nat) : UnsafeUri := { u with reads := reads ++ u.reads }

variable (mem : Nat → UInt8) (log : Bool)

-- The label unsafe; log is *flags & NGX_HTTP_LOG_UNSAFE.
def unsafeUri (len : Nat) : UnsafeUri := ⟨.error, len, none, log, []⟩

-- p[0] == '.' && p[1] == '.' && ngx_path_separator(p[2]), with the positions it reads
def dotDotSlash (p : Nat) : Bool × List Nat :=
  if mem p ≠ 46 then (false, [p])
  else if mem (p + 1) ≠ 46 then (false, [p, p + 1])
  else (mem (p + 2) = 47, [p, p + 1, p + 2])

-- for ( /* void */ ; len; len--), with uri->len as size
def unsafeLoop (size : Nat) : Nat → Nat → UnsafeUri
  | 0, _ => ⟨.ok, size, none, false, []⟩
  | len + 1, p =>
    let ch := mem p
    if isUsual ch then (unsafeLoop size len (p + 1)).read [p]
    else if ch = 63 then ⟨.ok, size - (len + 1), some (p + 1, len), false, [p]⟩
    else if ch = 0 then (unsafeUri log size).read [p]
    else if ch = 47 ∧ 2 < len + 1 then
      let (found, reads) := dotDotSlash mem (p + 1)
      if found then (unsafeUri log size).read (p :: reads)
      else (unsafeLoop size len (p + 1)).read (p :: reads)
    else (unsafeLoop size len (p + 1)).read [p]

-- if (p[0] == '.' && len == 3 && p[1] == '.' && (ngx_path_separator(p[2])))
def leadingDotDot (data len : Nat) : Bool × List Nat :=
  if mem data = 46 ∧ len = 3 then dotDotSlash mem data else (false, [data])

-- ngx_http_parse_unsafe_uri on the len bytes at data
def parseUnsafeUri (data len : Nat) : UnsafeUri :=
  if len = 0 then unsafeUri log len
  else if mem data = 63 then (unsafeUri log len).read [data]
  else
    let (found, reads) := leadingDotDot mem data len
    if found then (unsafeUri log len).read reads else (unsafeLoop mem log len len data).read reads

-- The part of a URI before its question mark
def pathPart (uri : Bytes) : Bytes := uri.takeWhile (· ≠ 63)

-- What the callers rely on
structure SafeUri (data len : Nat) (u : UnsafeUri) : Prop where
  inside : ∀ i ∈ u.reads, data ≤ i ∧ i < data + len
  path : u.rc = .ok → slice mem data (data + u.len) = pathPart (slice mem data (data + len))
  args : u.rc = .ok → u.len < len → u.args = some (data + u.len + 1, len - u.len - 1)
  safe : u.rc = .ok → u.len ≠ 0 ∧ 0 ∉ slice mem data (data + u.len) ∧
    [46, 46] ∉ (slice mem data (data + u.len)).splitOn 47

-- The loop refuses a path with a NUL byte or with two dots between two slashes.
def Refused (path : Bytes) : Prop := 0 ∈ path ∨ [47, 46, 46, 47] <:+: path

-- Two dots are the first or the last segment, or all of them.
def DotDotEnd (path : Bytes) : Prop := path = [46, 46] ∨ [46, 46, 47] <+: path ∨ [47, 46, 46] <:+ path

variable {mem : Nat → UInt8} {log : Bool} {size len p : Nat}

-- What the loop does on the rest of a URI
structure Scanned (mem : Nat → UInt8) (size len p : Nat) (u : UnsafeUri) : Prop where
  refused : Refused (pathPart (slice mem p (p + len))) → u.rc = .error ∧ ∀ i ∈ u.reads, p ≤ i ∧ i < p + len
  outside : ¬Refused (pathPart (slice mem p (p + len))) → [47, 46, 46] <:+ slice mem p (p + len) →
    63 ∉ slice mem p (p + len) → p + len ∈ u.reads
  accepted : ¬Refused (pathPart (slice mem p (p + len))) →
    ¬([47, 46, 46] <:+ slice mem p (p + len) ∧ 63 ∉ slice mem p (p + len)) →
    u.rc = .ok ∧ (∀ i ∈ u.reads, p ≤ i ∧ i < p + len) ∧
      u.len = size - (len - (pathPart (slice mem p (p + len))).length) ∧
      ((pathPart (slice mem p (p + len))).length < len →
        u.args = some (p + (pathPart (slice mem p (p + len))).length + 1,
          len - (pathPart (slice mem p (p + len))).length - 1))

theorem prefix_pathPart_iff {l rest : Bytes} (h : 63 ∉ l) : l <+: pathPart rest ↔ l <+: rest := by
  constructor
  · exact fun hl => hl.trans (List.takeWhile_prefix _)
  · rintro ⟨back, rfl⟩
    have hall : ∀ c ∈ l, decide (c ≠ 63) = true := by
      intro c hc
      have hne : c ≠ 63 := fun heq => h (heq ▸ hc)
      simpa using hne
    rw [pathPart, List.takeWhile_append_of_pos hall]
    exact List.prefix_append _ _

theorem pathPart_cons {c : UInt8} {rest : Bytes} (hc : c ≠ 63) : pathPart (c :: rest) = c :: pathPart rest :=
  List.takeWhile_cons_of_pos (by simpa using hc)

theorem refused_cons {c : UInt8} {path : Bytes} (h0 : c ≠ 0) (hpre : ¬[47, 46, 46, 47] <+: c :: path) :
    Refused (c :: path) ↔ Refused path := by
  unfold Refused
  rw [List.mem_cons, List.infix_cons_iff]
  have h0' : ¬(0 : UInt8) = c := fun heq => h0 heq.symm
  tauto

-- A turn that goes on and has read the positions of reads
theorem scanned_next {u : UnsafeUri} {reads : List Nat} (h63 : mem p ≠ 63) (h0 : mem p ≠ 0)
    (hpre : ¬[47, 46, 46, 47] <+: slice mem p (p + (len + 1))) (hends : slice mem p (p + (len + 1)) ≠ [47, 46, 46])
    (hreads : ∀ i ∈ reads, p ≤ i ∧ i < p + (len + 1)) (h : Scanned mem size len (p + 1) u) :
    Scanned mem size (len + 1) p (u.read reads) := by
  have hstep : slice mem p (p + (len + 1)) = mem p :: slice mem (p + 1) (p + 1 + len) := slice_step len p
  have hpath : pathPart (slice mem p (p + (len + 1))) = mem p :: pathPart (slice mem (p + 1) (p + 1 + len)) := by
    rw [hstep, pathPart_cons h63]
  have hrefused : Refused (pathPart (slice mem p (p + (len + 1)))) ↔ Refused (pathPart (slice mem (p + 1) (p + 1 + len))) := by
    rw [hpath]
    apply refused_cons h0
    rw [← hpath, prefix_pathPart_iff (by decide)]
    exact hpre
  have hsuffix : [47, 46, 46] <:+ slice mem p (p + (len + 1)) ↔ [47, 46, 46] <:+ slice mem (p + 1) (p + 1 + len) := by
    rw [hstep] at hends ⊢
    rw [List.suffix_cons_iff]
    exact or_iff_right (Ne.symm hends)
  have hquestion : 63 ∉ slice mem p (p + (len + 1)) ↔ 63 ∉ slice mem (p + 1) (p + 1 + len) := by
    rw [hstep, List.mem_cons]
    have h63' : ¬63 = mem p := fun heq => h63 heq.symm
    tauto
  have hsize : p + (len + 1) = p + 1 + len := by omega
  have hinside : (∀ i ∈ u.reads, p + 1 ≤ i ∧ i < p + 1 + len) → ∀ i ∈ (u.read reads).reads, p ≤ i ∧ i < p + (len + 1) := by
    intro hrest i hi
    obtain hi | hi := List.mem_append.mp hi
    · exact hreads i hi
    · have := hrest i hi
      omega
  refine ⟨?_, ?_, ?_⟩
  · intro hbad
    obtain ⟨hrc, hrest⟩ := h.refused (hrefused.mp hbad)
    exact ⟨hrc, hinside hrest⟩
  · intro hgood hdots hnone
    rw [hsize]
    exact List.mem_append_right _ (h.outside (hgood ∘ hrefused.mpr) (hsuffix.mp hdots) (hquestion.mp hnone))
  · intro hgood hends
    rw [hsuffix, hquestion] at hends
    obtain ⟨hrc, hrest, hlen, hargs⟩ := h.accepted (hgood ∘ hrefused.mpr) hends
    refine ⟨hrc, hinside hrest, ?_, ?_⟩
    · rw [hpath, List.length_cons, Nat.add_sub_add_right]
      exact hlen
    · rw [hpath, List.length_cons, Nat.add_sub_add_right]
      intro hlt
      have hset : u.args = _ := hargs (by omega)
      show u.args = _
      rw [hset, Nat.add_right_comm p 1]
      rfl

theorem dotDot_not_refused : ¬Refused [47, 46, 46] := by
  unfold Refused
  decide

-- The last three bytes: two dots at the end of the URI, and the byte behind it is read.
theorem scanned_end {u : UnsafeUri} (hrest : slice mem p (p + 3) = [47, 46, 46]) (hread : p + 3 ∈ u.reads) :
    Scanned mem size 3 p u := by
  have hpath : pathPart (slice mem p (p + 3)) = [47, 46, 46] := by
    rw [hrest]
    decide
  refine ⟨?_, fun _ _ _ => hread, ?_⟩
  · rw [hpath]
    exact fun hbad => absurd hbad dotDot_not_refused
  · rw [hrest]
    exact fun _ hnot => absurd ⟨List.suffix_rfl, by decide⟩ hnot

theorem usual_no_mark {ch : UInt8} (h : isUsual ch = true) : ch ≠ 63 ∧ ch ≠ 0 ∧ 47 ≠ ch := by
  have hnot : ¬isUsual ch = false := by simp [h]
  rw [isUsual_eq_false_iff] at hnot
  refine ⟨?_, ?_, ?_⟩ <;> (rintro rfl; exact hnot (by decide))

-- The turn at a slash with two bytes behind it
theorem dotDotSlash_scanned (hslash : mem p = 47) (hlen : 2 ≤ len) {u : UnsafeUri}
    (h : Scanned mem size len (p + 1) u) :
    Scanned mem size (len + 1) p (
      let (found, reads) := dotDotSlash mem (p + 1)
      if found then (unsafeUri log size).read (p :: reads) else u.read (p :: reads)) := by
  obtain ⟨n, rfl⟩ : ∃ n, len = n + 2 := ⟨len - 2, by omega⟩
  have hrest : slice mem p (p + (n + 2 + 1)) =
      47 :: mem (p + 1) :: mem (p + 1 + 1) :: slice mem (p + 1 + 1 + 1) (p + 1 + 1 + 1 + n) := by
    rw [slice_step, slice_step, slice_step, hslash]
  have h63 : mem p ≠ 63 := by rw [hslash]; decide
  have h0 : mem p ≠ 0 := by rw [hslash]; decide
  unfold dotDotSlash
  by_cases hfirst : mem (p + 1) = 46
  · by_cases hsecond : mem (p + 1 + 1) = 46
    · rw [hfirst, hsecond] at hrest
      simp only [hfirst, hsecond, ne_eq, not_true, if_false]
      cases n with
      | zero =>
          have hend : slice mem p (p + 3) = [47, 46, 46] := by
            rw [hrest]
            simp [slice_self]
          split
          · exact scanned_end hend (by simp [UnsafeUri.read])
          · exact scanned_end hend (by simp [UnsafeUri.read])
      | succ n =>
          rw [slice_step n] at hrest
          have hreads : ∀ i ∈ [p, p + 1, p + 1 + 1, p + 1 + 2], p ≤ i ∧ i < p + (n + 1 + 2 + 1) := by
            simp only [List.mem_cons, List.not_mem_nil, or_false]
            rintro i (rfl | rfl | rfl | rfl) <;> omega
          split
          · rename_i hthird
            have hthird' : mem (p + 1 + 1 + 1) = 47 := by simpa using hthird
            rw [hthird'] at hrest
            have hbad : Refused (pathPart (slice mem p (p + (n + 1 + 2 + 1)))) := by
              apply Or.inr
              apply List.IsPrefix.isInfix
              rw [prefix_pathPart_iff (by decide), hrest]
              exact ⟨_, rfl⟩
            refine ⟨fun _ => ⟨rfl, ?_⟩, fun hgood => absurd hbad hgood, fun hgood => absurd hbad hgood⟩
            simpa only [UnsafeUri.read, unsafeUri, List.append_nil] using hreads
          · rename_i hthird
            have hthird' : ¬mem (p + 1 + 1 + 1) = 47 := by simpa using hthird
            refine scanned_next h63 h0 ?_ ?_ hreads h
            · rw [hrest]
              intro hpre
              simp only [List.cons_prefix_cons, true_and] at hpre
              exact hthird' hpre.1.symm
            · rw [hrest]
              simp
    · simp only [hfirst, hsecond, ne_eq, not_true, not_false_eq_true, if_true, if_false, Bool.false_eq_true]
      refine scanned_next h63 h0 ?_ ?_ ?_ h
      · rw [hrest, List.cons_prefix_cons, List.cons_prefix_cons, List.cons_prefix_cons]
        exact fun hpre => hsecond hpre.2.2.1.symm
      · rw [hrest]
        exact fun heq => hsecond (List.cons.inj (List.cons.inj (List.cons.inj heq).2).2).1
      · simp only [List.mem_cons, List.not_mem_nil, or_false]
        rintro i (rfl | rfl | rfl) <;> omega
  · simp only [hfirst, ne_eq, not_false_eq_true, if_true, if_false, Bool.false_eq_true]
    refine scanned_next h63 h0 ?_ ?_ ?_ h
    · rw [hrest, List.cons_prefix_cons, List.cons_prefix_cons]
      exact fun hpre => hfirst hpre.2.1.symm
    · rw [hrest]
      exact fun heq => hfirst (List.cons.inj (List.cons.inj heq).2).1
    · simp only [List.mem_cons, List.not_mem_nil, or_false]
      rintro i (rfl | rfl) <;> omega

theorem unsafeLoop_scanned (size len p : Nat) : Scanned mem size len p (unsafeLoop mem log size len p) := by
  induction len generalizing p with
  | zero =>
      have hnil : slice mem p (p + 0) = [] := slice_self mem p
      refine ⟨?_, ?_, ?_⟩
      · rw [hnil]
        exact fun hbad => absurd hbad (by unfold Refused; decide)
      · rw [hnil]
        exact fun _ hdots => absurd hdots (by decide)
      · rw [hnil]
        exact fun _ _ => ⟨rfl, List.forall_mem_nil _, rfl, fun hlt => absurd hlt (Nat.not_lt_zero _)⟩
  | succ len ih =>
      rw [unsafeLoop]
      dsimp only
      have hhere : ∀ i ∈ [p], p ≤ i ∧ i < p + (len + 1) := List.forall_mem_singleton.mpr (by omega)
      have hhead : ∀ {l : Bytes} {c : UInt8}, c ≠ mem p → ¬(c :: l) <+: slice mem p (p + (len + 1)) := by
        intro l c hne hpre
        rw [slice_step, List.cons_prefix_cons] at hpre
        exact hne hpre.1
      have hfirst : ∀ {l : Bytes} {c : UInt8}, c ≠ mem p → slice mem p (p + (len + 1)) ≠ c :: l := by
        intro l c hne heq
        exact hhead hne ⟨[], (List.append_nil _).trans heq.symm⟩
      split
      · rename_i husual
        obtain ⟨h63, h0, h47⟩ := usual_no_mark husual
        exact scanned_next h63 h0 (hhead h47) (hfirst h47) hhere (ih (p + 1))
      · split
        · rename_i h63
          have hpath : pathPart (slice mem p (p + (len + 1))) = [] := by
            rw [slice_step, h63]
            rfl
          refine ⟨?_, ?_, ?_⟩
          · rw [hpath]
            exact fun hbad => absurd hbad (by unfold Refused; decide)
          · intro _ _ hnone
            rw [slice_step, h63] at hnone
            exact absurd List.mem_cons_self hnone
          · rw [hpath]
            exact fun _ _ => ⟨rfl, hhere, rfl, fun _ => rfl⟩
        · split
          · rename_i h63 h0
            have hbad : Refused (pathPart (slice mem p (p + (len + 1)))) := by
              rw [slice_step, pathPart_cons h63, h0]
              exact .inl List.mem_cons_self
            exact ⟨fun _ => ⟨rfl, hhere⟩, fun hgood => absurd hbad hgood, fun hgood => absurd hbad hgood⟩
          · rename_i h63 h0
            split
            · rename_i hslash
              exact dotDotSlash_scanned hslash.1 (by omega) (ih (p + 1))
            · rename_i hslash
              by_cases h47 : mem p = 47
              · have hshort : ¬2 < len + 1 := fun hlt => hslash ⟨h47, hlt⟩
                have hsize : (slice mem p (p + (len + 1))).length ≤ 2 := by
                  rw [slice_length]
                  omega
                refine scanned_next h63 h0 ?_ ?_ hhere (ih (p + 1))
                · intro hpre
                  have hlong : 4 ≤ 2 := Nat.le_trans hpre.length_le hsize
                  omega
                · intro heq
                  rw [heq] at hsize
                  exact absurd hsize (by decide)
              · exact scanned_next h63 h0 (hhead (Ne.symm h47)) (hfirst (Ne.symm h47)) hhere (ih (p + 1))

-- The test before the loop finds the URI that is two dots with a slash, and reads inside of any other.
theorem leadingDotDot_spec (mem : Nat → UInt8) (data : Nat) (hlen : 0 < len) :
    ((leadingDotDot mem data len).1 = true ↔ slice mem data (data + len) = [46, 46, 47]) ∧
      ∀ i ∈ (leadingDotDot mem data len).2, data ≤ i ∧ i < data + len := by
  unfold leadingDotDot
  split
  · rename_i hshort
    obtain ⟨hdot, rfl⟩ := hshort
    have hslice : slice mem data (data + 3) = [46, mem (data + 1), mem (data + 1 + 1)] := by
      rw [slice_step, slice_step, slice_step, hdot]
      simp [slice_self]
    rw [hslice]
    unfold dotDotSlash
    by_cases hsecond : mem (data + 1) = 46
    · simp only [hdot, hsecond, ne_eq, not_true, if_false]
      refine ⟨?_, ?_⟩
      · simp
      · simp only [List.mem_cons, List.not_mem_nil, or_false]
        rintro i (rfl | rfl | rfl) <;> omega
    · simp only [hdot, hsecond, ne_eq, not_true, not_false_eq_true, if_true, if_false]
      refine ⟨?_, ?_⟩
      · simp [hsecond]
      · simp only [List.mem_cons, List.not_mem_nil, or_false]
        rintro i (rfl | rfl) <;> omega
  · rename_i hshort
    refine ⟨?_, List.forall_mem_singleton.mpr (by omega)⟩
    simp only [Bool.false_eq_true, false_iff]
    intro hslice
    have hsize : len = 3 := by
      have := congrArg List.length hslice
      rwa [slice_length, Nat.add_sub_cancel_left] at this
    rw [hsize, slice_step] at hslice
    exact hshort ⟨(List.cons.inj hslice).1, hsize⟩

theorem pathPart_length_le (uri : Bytes) : (pathPart uri).length ≤ uri.length := (List.takeWhile_prefix _).length_le

theorem slice_pathPart {data : Nat} :
    slice mem data (data + (pathPart (slice mem data (data + len))).length) = pathPart (slice mem data (data + len)) :=
  (prefix_slice_iff.mp (List.takeWhile_prefix _)).2

theorem dotDot_mem_iff (path : Bytes) :
    [46, 46] ∈ path.splitOn 47 ↔ DotDotEnd path ∨ [47, 46, 46, 47] <:+: path := by
  rw [Segments.mem_splitOn_iff (by decide), DotDotEnd]
  simp only [List.cons_append, List.nil_append]
  tauto

theorem scanned_safe_iff {data : Nat} {u : UnsafeUri} {reads : List Nat} (hpath : pathPart (slice mem data (data + len)) ≠ [])
    (hreads : ∀ i ∈ reads, data ≤ i ∧ i < data + len) (h : Scanned mem len len data u) :
    SafeUri mem data len (u.read reads) ↔
      (DotDotEnd (pathPart (slice mem data (data + len))) → Refused (pathPart (slice mem data (data + len)))) := by
  have hinside : (∀ i ∈ u.reads, data ≤ i ∧ i < data + len) → ∀ i ∈ (u.read reads).reads, data ≤ i ∧ i < data + len := by
    intro hrest i hi
    exact (List.mem_append.mp hi).elim (hreads i) (hrest i)
  have hle : (pathPart (slice mem data (data + len))).length ≤ len := by
    have := pathPart_length_le (slice mem data (data + len))
    rwa [slice_length, Nat.add_sub_cancel_left] at this
  have hlength : len - (len - (pathPart (slice mem data (data + len))).length) =
      (pathPart (slice mem data (data + len))).length := by omega
  constructor
  · intro hsafe hdots
    by_contra hgood
    by_cases hends : [47, 46, 46] <:+ slice mem data (data + len) ∧ 63 ∉ slice mem data (data + len)
    · have hread := h.outside hgood hends.1 hends.2
      have := hsafe.inside _ (List.mem_append_right _ hread)
      omega
    · obtain ⟨hrc, -, hlen, -⟩ := h.accepted hgood hends
      have hslice := hsafe.path hrc
      have hnone := (hsafe.safe hrc).2.2
      rw [hslice, dotDot_mem_iff] at hnone
      exact hnone (.inl hdots)
  · intro hcond
    by_cases hbad : Refused (pathPart (slice mem data (data + len)))
    · obtain ⟨hrc, hrest⟩ := h.refused hbad
      have hrc' : (u.read reads).rc = .error := hrc
      refine ⟨hinside hrest, ?_, ?_, ?_⟩ <;> (intro hok; rw [hrc'] at hok; cases hok)
    · have hends : ¬([47, 46, 46] <:+ slice mem data (data + len) ∧ 63 ∉ slice mem data (data + len)) := by
        rintro ⟨hsuffix, hnone⟩
        have hwhole : pathPart (slice mem data (data + len)) = slice mem data (data + len) := by
          apply List.takeWhile_eq_self_iff.mpr
          intro c hc
          have hne : c ≠ 63 := fun heq => hnone (heq ▸ hc)
          simpa using hne
        exact hbad (hcond (.inr (.inr (hwhole.symm ▸ hsuffix))))
      obtain ⟨-, hrest, hlen, hargs⟩ := h.accepted hbad hends
      have hlen' : (u.read reads).len = (pathPart (slice mem data (data + len))).length := hlen.trans hlength
      refine ⟨hinside hrest, fun _ => ?_, fun _ hlt => ?_, fun _ => ?_⟩
      · rw [hlen', slice_pathPart]
      · rw [hlen'] at hlt ⊢
        exact hargs hlt
      · rw [hlen', slice_pathPart]
        refine ⟨fun hzero => hpath (List.length_eq_zero_iff.mp hzero), fun hnul => hbad (.inl hnul), ?_⟩
        rw [dotDot_mem_iff, not_or]
        exact ⟨fun hdots => hbad (hcond hdots), fun hinfix => hbad (.inr hinfix)⟩

theorem error_safe {data : Nat} {u : UnsafeUri} (hrc : u.rc = .error) (hreads : ∀ i ∈ u.reads, data ≤ i ∧ i < data + len) :
    SafeUri mem data len u := by
  refine ⟨hreads, ?_, ?_, ?_⟩ <;> (intro hok; rw [hrc] at hok; cases hok)

theorem parseUnsafeUri_safe_iff (mem : Nat → UInt8) (log : Bool) (data len : Nat) :
    SafeUri mem data len (parseUnsafeUri mem log data len) ↔
      (DotDotEnd (pathPart (slice mem data (data + len))) →
        Refused (pathPart (slice mem data (data + len))) ∨ slice mem data (data + len) = [46, 46, 47]) := by
  have hnoDots : ¬DotDotEnd [] := by
    unfold DotDotEnd
    decide
  unfold parseUnsafeUri
  split
  · rename_i hzero
    subst hzero
    have hnil : pathPart (slice mem data (data + 0)) = [] := by
      rw [Nat.add_zero, slice_self]
      rfl
    rw [hnil]
    exact ⟨fun _ hdots => absurd hdots hnoDots, fun _ => error_safe rfl (List.forall_mem_nil _)⟩
  · rename_i hlen
    obtain ⟨n, rfl⟩ := Nat.exists_eq_succ_of_ne_zero hlen
    split
    · rename_i h63
      have hnil : pathPart (slice mem data (data + (n + 1))) = [] := by
        rw [slice_step, h63]
        rfl
      rw [hnil]
      exact ⟨fun _ hdots => absurd hdots hnoDots,
        fun _ => error_safe rfl (List.forall_mem_singleton.mpr (by omega))⟩
    · rename_i h63
      obtain ⟨hfound, hreads⟩ := leadingDotDot_spec mem data (Nat.succ_pos n)
      generalize leadingDotDot mem data (n + 1) = leading at hfound hreads
      obtain ⟨found, reads⟩ := leading
      dsimp only at hfound hreads ⊢
      cases found with
      | true =>
          have hdots := hfound.mp rfl
          rw [if_pos rfl]
          refine ⟨fun _ _ => .inr hdots, fun _ => error_safe rfl ?_⟩
          simpa only [UnsafeUri.read, unsafeUri, List.append_nil] using hreads
      | false =>
          have hne : ¬slice mem data (data + (n + 1)) = [46, 46, 47] := fun h => absurd (hfound.mpr h) Bool.false_ne_true
          have hpath : pathPart (slice mem data (data + (n + 1))) ≠ [] := by
            rw [slice_step, pathPart_cons h63]
            exact List.cons_ne_nil _ _
          rw [if_neg Bool.false_ne_true, scanned_safe_iff hpath hreads (unsafeLoop_scanned _ _ _)]
          simp only [hne, or_false]

-- "../a" is accepted, and the test at the slash of "/.." reads the byte behind it.
theorem leading_dots_accepted :
    let up : Nat → UInt8 := fun i => (ngxString "../a").getD i 0
    let last : Nat → UInt8 := fun i => (ngxString "/..").getD i 0
    (parseUnsafeUri up true 0 4).rc = .ok ∧ (parseUnsafeUri up true 0 4).len = 4 ∧
      [46, 46] ∈ (slice up 0 4).splitOn 47 ∧ ¬SafeUri up 0 4 (parseUnsafeUri up true 0 4) ∧
      3 ∈ (parseUnsafeUri last true 0 3).reads ∧ ¬SafeUri last 0 3 (parseUnsafeUri last true 0 3) := by
  intro up last
  have hok : (parseUnsafeUri up true 0 4).rc = .ok := by decide
  have hlen : (parseUnsafeUri up true 0 4).len = 4 := by decide
  have hmem : [46, 46] ∈ (slice up 0 4).splitOn 47 := by decide
  have hread : 3 ∈ (parseUnsafeUri last true 0 3).reads := by decide
  refine ⟨hok, hlen, hmem, ?_, hread, ?_⟩
  · intro hsafe
    have hnone := (hsafe.safe hok).2.2
    rw [hlen] at hnone
    exact hnone hmem
  · intro hsafe
    exact absurd (hsafe.inside 3 hread).2 (by decide)

end Nginx.HttpParse
