import Nginx.Http.Parse.RequestLine

namespace Nginx.HttpHost

open HttpParse

structure HostState where
  last : Nat
  dot : Bool
  alloc : Bool

-- The body of the loop for ch = h[i], where none is return 0
def hostByte (s : HostState) (i : Nat) (ch : UInt8) : Option HostState :=
  if ch = 46 then
    if s.dot then none else some { s with dot := true }
  else if ch = 58 then some { s with dot := false, last := i }
  else if ch = 47 ∨ ch = 0 then none
  else if 65 ≤ ch ∨ ch < 90 then some { s with dot := false, alloc := true }
  else some { s with dot := false }

-- The loop from i on, for fuel bytes
def hostLoop (h : Nat → UInt8) : Nat → Nat → HostState → Option HostState
  | 0, _, s => some s
  | fuel + 1, i, s =>
    match hostByte s i (h i) with
    | none => none
    | some s => hostLoop h fuel (i + 1) s

-- What is returned, the sizes ngx_pnalloc is asked for, and the memory at *host: none is NULL.
structure Validated where
  rc : Int
  asked : List Nat
  host : Option (Nat → UInt8)

def strlow (dst src : Nat → UInt8) (n : Nat) : Nat → UInt8 := fun i => if i < n then tolower (src i) else dst i

-- ngx_http_validate_host on the len bytes at h, where pnalloc has the memory for each size that the pool gives
def validateHost (pnalloc : Nat → Option (Nat → UInt8)) (h : Nat → UInt8) (len : Nat) (alloc : Bool) : Validated :=
  match hostLoop h len 0 ⟨len, false, alloc⟩ with
  | none => ⟨0, [], some h⟩
  | some s =>
    let last := if s.dot then toSize (s.last - 1) else s.last
    if s.alloc then
      match pnalloc last with
      | none => ⟨-1, [last], none⟩
      | some dst => ⟨toInt64 last, [last], some (strlow dst h last)⟩
    else ⟨toInt64 last, [], some h⟩

-- The host in front of its last ':'
def NameOf (host name : Bytes) : Prop :=
  58 ∉ host ∧ name = host ∨ ∃ port, host = name ++ 58 :: port ∧ 58 ∉ port

def withoutDot (name : Bytes) : Bytes := if name.getLast? = some 46 then name.dropLast else name

def Invalid (host : Bytes) : Prop := 47 ∈ host ∨ 0 ∈ host ∨ [46, 46] <:+: host

-- One call on a host
structure HostRight (host : Bytes) (pnalloc : Nat → Option (Nat → UInt8)) (out : Validated) : Prop where
  asked : ∀ n ∈ out.asked, n ≤ host.length
  returned : 0 ≤ out.rc ∧ out.rc ≤ host.length ∨ out.rc = -1 ∧ ∃ n ∈ out.asked, pnalloc n = none
  name : ∀ n : Nat, 0 < n → out.rc = n → ∃ mem name, out.host = some mem ∧ NameOf host name ∧
    slice mem 0 n = (withoutDot name).map tolower ∧ ¬Invalid (slice mem 0 n)

-- A dot at the end of the port is taken for one of the name.
def DotsAgree (host : Bytes) : Prop :=
  ∀ name port, host = name ++ 58 :: port → 58 ∉ port →
    (port.getLast? = some 46 ↔ name.getLast? = some 46) ∨ name.length = 1 ∧ port.getLast? = some 46

section Loop

variable {h : Nat → UInt8} {len i : Nat} {alloc : Bool} {s s' : HostState} {ch : UInt8}

-- What the state says about the bytes that are read
structure Scanned (pre : Bytes) (len : Nat) (alloc : Bool) (s : HostState) : Prop where
  valid : ¬Invalid pre
  dot : s.dot = true ↔ pre.getLast? = some 46
  last : 58 ∉ pre ∧ s.last = len ∨ ∃ name port, pre = name ++ 58 :: port ∧ 58 ∉ port ∧ s.last = name.length
  alloc : s.alloc = false → alloc = false ∧ ∀ c ∈ pre, c = 46 ∨ c = 58

theorem invalid_snoc (pre : Bytes) (ch : UInt8) :
    Invalid (pre ++ [ch]) ↔ Invalid pre ∨ ch = 47 ∨ ch = 0 ∨ ch = 46 ∧ pre.getLast? = some 46 := by
  have hpair : ([46, 46] : Bytes) <:+ pre ++ [ch] ↔ ch = 46 ∧ pre.getLast? = some 46 := by
    rw [List.suffix_concat_iff, ← List.singleton_suffix_iff_getLast?_eq_some]
    constructor
    · rintro (hnil | ⟨t, heq, hsuffix⟩)
      · cases hnil
      · have hsplit : ([46] ++ [46] : Bytes) = t ++ [ch] := heq
        obtain ⟨ht, hch⟩ := List.append_inj' hsplit rfl
        exact ⟨(List.cons.inj hch).1.symm, ht ▸ hsuffix⟩
    · rintro ⟨rfl, hsuffix⟩
      exact .inr ⟨[46], rfl, hsuffix⟩
  unfold Invalid
  rw [List.infix_concat_iff, hpair, List.mem_append, List.mem_append, List.mem_singleton, List.mem_singleton]
  tauto

theorem Invalid.append {pre : Bytes} (hpre : Invalid pre) (post : Bytes) : Invalid (pre ++ post) := by
  obtain h47 | h0 | hdots := hpre
  · exact .inl (List.mem_append_left post h47)
  · exact .inr (.inl (List.mem_append_left post h0))
  · exact .inr (.inr (hdots.trans (List.prefix_append pre post).isInfix))

theorem Scanned.nil (len : Nat) (alloc : Bool) : Scanned [] len alloc ⟨len, false, alloc⟩ where
  valid := by simp [Invalid]
  dot := by simp
  last := .inl ⟨List.not_mem_nil, rfl⟩
  alloc h := ⟨h, List.forall_mem_nil _⟩

-- A byte that is no ':' leaves the last ':' where it is.
theorem last_snoc {pre : Bytes} (hch : ch ≠ 58)
    (h : 58 ∉ pre ∧ s.last = len ∨ ∃ name port, pre = name ++ 58 :: port ∧ 58 ∉ port ∧ s.last = name.length) :
    58 ∉ pre ++ [ch] ∧ s.last = len ∨
      ∃ name port, pre ++ [ch] = name ++ 58 :: port ∧ 58 ∉ port ∧ s.last = name.length := by
  obtain ⟨hnot, hlast⟩ | ⟨name, port, rfl, hport, hlast⟩ := h
  · exact .inl ⟨by simp [hnot, hch.symm], hlast⟩
  · exact .inr ⟨name, port ++ [ch], by simp, by simp [hport, hch.symm], hlast⟩

theorem hostByte_scanned {pre : Bytes} (ch : UInt8) (hscan : Scanned pre len alloc s) :
    match hostByte s pre.length ch with
    | none => Invalid (pre ++ [ch])
    | some s' => Scanned (pre ++ [ch]) len alloc s' := by
  have hlast : (pre ++ [ch]).getLast? = some ch := List.getLast?_concat
  have hvalid : ch ≠ 47 ∧ ch ≠ 0 ∧ (ch = 46 → ¬s.dot = true) → ¬Invalid (pre ++ [ch]) := by
    rintro ⟨h47, h0, h46⟩ hinvalid
    obtain hpre | h | h | h := (invalid_snoc pre ch).mp hinvalid
    · exact hscan.valid hpre
    · exact h47 h
    · exact h0 h
    · exact h46 h.1 (hscan.dot.mpr h.2)
  have hmarks : s.alloc = false → ch = 46 ∨ ch = 58 → alloc = false ∧ ∀ c ∈ pre ++ [ch], c = 46 ∨ c = 58 := by
    intro halloc hch
    obtain ⟨hfalse, hall⟩ := hscan.alloc halloc
    exact ⟨hfalse, List.forall_mem_append.mpr ⟨hall, List.forall_mem_singleton.mpr hch⟩⟩
  rw [hostByte]
  by_cases h46 : ch = 46
  · rw [if_pos h46]
    by_cases hdot : s.dot = true
    · rw [if_pos hdot]
      exact (invalid_snoc pre ch).mpr (.inr (.inr (.inr ⟨h46, hscan.dot.mp hdot⟩)))
    · rw [if_neg hdot]
      refine ⟨hvalid ⟨by rw [h46]; decide, by rw [h46]; decide, fun _ => hdot⟩, ?_, last_snoc ?_ hscan.last, ?_⟩
      · rw [hlast, h46]
        exact iff_of_true rfl rfl
      · rw [h46]
        decide
      · exact fun halloc => hmarks halloc (.inl h46)
  · have hdot : false = true ↔ (pre ++ [ch]).getLast? = some 46 := by
      rw [hlast]
      exact iff_of_false Bool.false_ne_true fun h => h46 (Option.some.inj h)
    rw [if_neg h46]
    by_cases h58 : ch = 58
    · rw [if_pos h58]
      refine ⟨hvalid ⟨by rw [h58]; decide, by rw [h58]; decide, fun h => absurd h h46⟩, hdot, ?_, ?_⟩
      · exact .inr ⟨pre, [], by rw [h58], List.not_mem_nil, rfl⟩
      · exact fun halloc => hmarks halloc (.inr h58)
    · rw [if_neg h58]
      by_cases hbad : ch = 47 ∨ ch = 0
      · rw [if_pos hbad]
        exact (invalid_snoc pre ch).mpr (.inr (hbad.imp_right .inl))
      · obtain ⟨h47, h0⟩ := not_or.mp hbad
        -- (ch >= 'A' || ch < 'Z') is true of every byte.
        have hall : ∀ c : UInt8, 65 ≤ c ∨ c < 90 := byte_cases (by decide +kernel)
        rw [if_neg hbad, if_pos (hall ch)]
        exact ⟨hvalid ⟨h47, h0, fun h => absurd h h46⟩, hdot, last_snoc h58 hscan.last, nofun⟩

variable (h) in
theorem hostLoop_scanned (fuel i : Nat) (s : HostState) (hscan : Scanned (slice h 0 i) len alloc s) :
    match hostLoop h fuel i s with
    | none => Invalid (slice h 0 (i + fuel))
    | some s' => Scanned (slice h 0 (i + fuel)) len alloc s' := by
  induction fuel generalizing i s with
  | zero => exact hscan
  | succ fuel ih =>
      have hstep := hostByte_scanned (h i) hscan
      rw [slice_length, Nat.sub_zero, ← slice_succ (Nat.zero_le i)] at hstep
      rw [hostLoop]
      cases hbyte : hostByte s i (h i) with
      | none =>
          rw [hbyte] at hstep
          have hsplit : slice h 0 (i + (fuel + 1)) = slice h 0 (i + 1) ++ slice h (i + 1) (i + (fuel + 1)) :=
            slice_append (Nat.zero_le _) (by omega)
          rw [hsplit]
          exact hstep.append _
      | some s' =>
          rw [hbyte] at hstep
          have hrest := ih (i + 1) s' hstep
          rwa [Nat.add_right_comm, Nat.add_assoc] at hrest

end Loop

section Name

variable {h : Nat → UInt8} {len : Nat} {alloc dot : Bool} {s : HostState} {host name name' : Bytes}

theorem nameOf_unique (hname : NameOf host name) (hname' : NameOf host name') : name' = name := by
  have hsplit : ∀ {a b c d : Bytes}, a ++ 58 :: b = c ++ 58 :: d → 58 ∉ b → 58 ∉ d → c = a := by
    intro a b c d heq hb hd
    obtain ⟨l, hl, hr⟩ | ⟨l, hl, hr⟩ := List.append_eq_append_iff.mp heq
    · cases l with
      | nil => rw [hl, List.append_nil]
      | cons x l => exact absurd ((List.cons.inj hr).2 ▸ List.mem_append_right l List.mem_cons_self) hb
    · cases l with
      | nil => rw [hl, List.append_nil]
      | cons x l => exact absurd ((List.cons.inj hr).2 ▸ List.mem_append_right l List.mem_cons_self) hd
  obtain ⟨hnot, rfl⟩ | ⟨port, rfl, hport⟩ := hname
  · obtain ⟨-, rfl⟩ | ⟨port', rfl, -⟩ := hname'
    · rfl
    · exact absurd (List.mem_append_right _ List.mem_cons_self) hnot
  · obtain ⟨hnot, -⟩ | ⟨port', heq, hport'⟩ := hname'
    · exact absurd (List.mem_append_right _ List.mem_cons_self) hnot
    · exact hsplit heq hport hport'

-- The dot at the end of the host, and the one of its name
def EndsAgree (name : Bytes) (dot : Bool) : Prop :=
  (dot = true ↔ name.getLast? = some 46) ∨ name.length = 1 ∧ dot = true

theorem Scanned.nameOf (hscan : Scanned host len alloc s) (hlen : host.length = len) :
    ∃ name, NameOf host name ∧ s.last = name.length ∧ name <+: host ∧ (DotsAgree host ↔ EndsAgree name s.dot) := by
  obtain ⟨hnot, hlast⟩ | ⟨name, port, heq, hport, hlast⟩ := hscan.last
  · refine ⟨host, .inl ⟨hnot, rfl⟩, hlast.trans hlen.symm, List.prefix_refl host, iff_of_true ?_ (.inl hscan.dot)⟩
    intro name port heq
    exact absurd (heq ▸ List.mem_append_right name List.mem_cons_self) hnot
  · have hname : NameOf host name := .inr ⟨port, heq, hport⟩
    have hend : s.dot = true ↔ port.getLast? = some 46 := by
      rw [hscan.dot, heq, List.getLast?_append, List.getLast?_cons]
      cases hlastPort : port.getLast? with
      | none => exact iff_of_false nofun nofun
      | some c => rfl
    refine ⟨name, hname, hlast, heq ▸ List.prefix_append _ _, fun hagree => ?_, fun hagree name' port' heq' hport' => ?_⟩
    · rw [EndsAgree, hend]
      exact hagree name port heq hport
    · obtain rfl := nameOf_unique hname (.inr ⟨port', heq', hport'⟩)
      obtain rfl : port' = port := (List.cons.inj (List.append_cancel_left (heq'.symm.trans heq))).2
      rw [EndsAgree, hend] at hagree
      exact hagree

theorem withoutDot_length (name : Bytes) :
    (withoutDot name).length = if name.getLast? = some 46 then name.length - 1 else name.length := by
  unfold withoutDot
  split
  · exact List.length_dropLast
  · rfl

theorem invalid_of_lower {l : Bytes} (hinvalid : Invalid (l.map tolower)) : Invalid l := by
  have hsame : ∀ c : UInt8, (tolower c = 47 → c = 47) ∧ (tolower c = 0 → c = 0) ∧ (tolower c = 46 → c = 46) :=
    byte_cases (by decide +kernel)
  obtain h47 | h0 | hdots := hinvalid
  · obtain ⟨c, hc, heq⟩ := List.mem_map.mp h47
    exact .inl ((hsame c).1 heq ▸ hc)
  · obtain ⟨c, hc, heq⟩ := List.mem_map.mp h0
    exact .inr (.inl ((hsame c).2.1 heq ▸ hc))
  · obtain ⟨front, back, heq⟩ := hdots
    obtain ⟨front', rest, rfl, -, hrest⟩ := List.append_eq_map_iff.mp (List.append_assoc front _ back ▸ heq)
    obtain ⟨pair, back', rfl, hpair, -⟩ := List.append_eq_map_iff.mp hrest.symm
    obtain ⟨c, l, rfl, hc, hl⟩ := List.map_eq_cons_iff.mp hpair
    obtain ⟨d, l, rfl, hd, hl⟩ := List.map_eq_cons_iff.mp hl
    obtain rfl := List.map_eq_nil_iff.mp hl
    rw [(hsame c).2.2 hc, (hsame d).2.2 hd]
    exact .inr (.inr ⟨front', back', List.append_assoc _ _ _⟩)

-- The size that is returned, for the name in front of the last ':'
def nameSize (name : Bytes) (dot : Bool) : Nat := if dot then toSize (name.length - 1) else name.length

theorem nameSize_dot (hlen : name.length < 2 ^ 63) (hne : name ≠ []) : nameSize name true = name.length - 1 := by
  have hpos := List.length_pos_iff.mpr hne
  rw [nameSize, if_pos rfl, toSize]
  omega

theorem nameSize_of_agree (hlen : name.length < 2 ^ 63) (hagree : EndsAgree name dot) :
    nameSize name dot ≤ name.length ∧ (0 < nameSize name dot → name.take (nameSize name dot) = withoutDot name) := by
  cases dot with
  | false =>
      obtain hends | ⟨-, hdot⟩ := hagree
      · have hends : ¬name.getLast? = some 46 := fun h => absurd (hends.mpr h) Bool.false_ne_true
        exact ⟨Nat.le_refl _, fun _ => by rw [withoutDot, if_neg hends]; exact List.take_length⟩
      · cases hdot
  | true =>
      have hne : name ≠ [] := by
        rintro rfl
        obtain hends | ⟨hone, -⟩ := hagree
        · exact absurd (hends.mp rfl) nofun
        · cases hone
      rw [nameSize_dot hlen hne]
      refine ⟨Nat.sub_le _ _, fun hmore => ?_⟩
      obtain hends | ⟨hone, -⟩ := hagree
      · rw [withoutDot, if_pos (hends.mp rfl), List.dropLast_eq_take]
      · omega

theorem agree_of_nameSize (hlen : name.length < 2 ^ 63) (hsize : nameSize name dot < 2 ^ 63)
    (h : 0 < nameSize name dot → nameSize name dot = (withoutDot name).length) : EndsAgree name dot := by
  rw [withoutDot_length] at h
  cases dot with
  | false =>
      refine .inl (iff_of_false Bool.false_ne_true fun hends => ?_)
      have hne := List.length_pos_iff.mpr (List.ne_nil_of_mem (List.mem_of_getLast? hends))
      have hsame := h hne
      rw [if_pos hends] at hsame
      change name.length = name.length - 1 at hsame
      omega
  | true =>
      have hne : name ≠ [] := by
        rintro rfl
        exact absurd hsize (by decide)
      have hpos := List.length_pos_iff.mpr hne
      rw [nameSize_dot hlen hne] at h
      by_cases hone : name.length = 1
      · exact .inr ⟨hone, rfl⟩
      · have hsame := h (by omega)
        split at hsame
        · rename_i hends
          exact .inl (iff_of_true rfl hends)
        · omega

end Name

section Validate

variable {h : Nat → UInt8} {len : Nat} {alloc : Bool} {s : HostState} {name : Bytes}
  {pnalloc : Nat → Option (Nat → UInt8)}

theorem strlow_slice (dst src : Nat → UInt8) (n : Nat) : slice (strlow dst src n) 0 n = (slice src 0 n).map tolower := by
  unfold slice strlow
  rw [List.map_map]
  refine List.map_congr_left fun i hi => ?_
  have hlt : 0 + i < n := by
    rw [List.mem_range] at hi
    omega
  rw [if_pos hlt]
  rfl

-- What is returned when the loop ends, for the name in front of the last ':'
def nameOut (pnalloc : Nat → Option (Nat → UInt8)) (h : Nat → UInt8) (alloc : Bool) (n : Nat) : Validated :=
  if alloc then
    match pnalloc n with
    | none => ⟨-1, [n], none⟩
    | some dst => ⟨toInt64 n, [n], some (strlow dst h n)⟩
  else ⟨toInt64 n, [], some h⟩

theorem right_of_agree (hlen : len < 2 ^ 63) (hscan : Scanned (slice h 0 len) len alloc s)
    (hname : NameOf (slice h 0 len) name) (hinitial : name <+: slice h 0 len) (hagree : EndsAgree name s.dot) :
    HostRight (slice h 0 len) pnalloc (nameOut pnalloc h s.alloc (nameSize name s.dot)) := by
  have hsize := slice_length h 0 len
  have hnameLen := hinitial.length_le
  obtain ⟨hle, htake⟩ := nameSize_of_agree (by omega) hagree
  generalize nameSize name s.dot = n at hle htake ⊢
  have hrc : toInt64 n = n := toInt64_of_range n (by omega) (by omega)
  have hsplit : slice h 0 len = slice h 0 n ++ slice h n len := slice_append (Nat.zero_le n) (by omega)
  have hbytes : 0 < n → slice h 0 n = withoutDot name := by
    intro hn
    obtain ⟨port, hport⟩ := hinitial
    have hfront : name.take n = (slice h 0 len).take n := by
      rw [← hport]
      exact (List.take_append_of_le_length hle).symm
    rw [← htake hn, hfront, hsplit]
    exact (List.take_left' (slice_length h 0 n)).symm
  have hvalid : ¬Invalid (slice h 0 n) := fun hinvalid => hscan.valid (hsplit ▸ hinvalid.append _)
  have hret : 0 ≤ (n : Int) ∧ (n : Int) ≤ (slice h 0 len).length := by omega
  cases halloc : s.alloc with
  | true =>
      have hasked : ∀ m ∈ [n], m ≤ (slice h 0 len).length := List.forall_mem_singleton.mpr (by omega)
      rw [nameOut, if_pos rfl, hrc]
      cases hmem : pnalloc n with
      | none => exact ⟨hasked, .inr ⟨rfl, n, List.mem_singleton_self n, hmem⟩, nofun⟩
      | some dst =>
          refine ⟨hasked, .inl hret, fun m hm heq => ?_⟩
          obtain rfl : n = m := Int.ofNat_inj.mp heq
          refine ⟨_, name, rfl, hname, ?_, ?_⟩
          · rw [strlow_slice, hbytes hm]
          · rw [strlow_slice]
            exact fun hinvalid => hvalid (invalid_of_lower hinvalid)
  | false =>
      rw [nameOut, if_neg Bool.false_ne_true, hrc]
      refine ⟨List.forall_mem_nil _, .inl hret, fun m hm heq => ?_⟩
      obtain rfl : n = m := Int.ofNat_inj.mp heq
      refine ⟨h, name, rfl, hname, ?_, hvalid⟩
      -- No byte has asked for the memory: all of them are dots and colons.
      have hmarks : ∀ c ∈ slice h 0 n, tolower c = c := by
        intro c hc
        obtain rfl | rfl := (hscan.alloc halloc).2 c (hsplit ▸ List.mem_append_left _ hc)
        · rfl
        · rfl
      rw [← hbytes hm, List.map_congr_left hmarks, List.map_id']

theorem agree_of_right (hlen : len < 2 ^ 63) (hname : NameOf (slice h 0 len) name) (hinitial : name <+: slice h 0 len)
    (hright : HostRight (slice h 0 len) (fun _ => some h) (nameOut (fun _ => some h) h s.alloc (nameSize name s.dot))) :
    EndsAgree name s.dot := by
  have hsize := slice_length h 0 len
  have hnameLen := hinitial.length_le
  have hbound : nameSize name s.dot < 2 ^ 64 := by
    unfold nameSize toSize
    split <;> omega
  generalize hn : nameSize name s.dot = n at hright hbound
  have hsmall : n < 2 ^ 63 := by
    by_contra hbig
    unfold nameOut at hright
    split at hright
    · have := hright.asked n (List.mem_singleton_self n)
      omega
    · have hnegative : toInt64 n < 0 := by
        unfold toInt64
        rw [Int.bmod_def]
        split <;> omega
      have hreturned := hright.returned
      dsimp only at hreturned
      obtain ⟨hle, -⟩ | ⟨-, m, hmem, -⟩ := hreturned
      · omega
      · cases hmem
  have hrc : (nameOut (fun _ => some h) h s.alloc n).rc = n := by
    have hsigned : toInt64 n = n := toInt64_of_range n (by omega) (by omega)
    rw [nameOut, hsigned]
    split
    · rfl
    · rfl
  refine agree_of_nameSize (by omega) (by rwa [hn]) fun hpos => ?_
  rw [hn] at hpos ⊢
  obtain ⟨mem, name', -, hname', hbytes, -⟩ := hright.name n hpos hrc
  have hlength := congrArg List.length hbytes
  rw [nameOf_unique hname hname', slice_length, List.length_map] at hlength
  exact hlength

-- With a port the dot at the end of the host may be one of the port: it is dropped from the name, of which nothing may
-- be left to drop, and a dot at the end of the name is left there.
theorem validateHost_right_iff (h : Nat → UInt8) (len : Nat) (alloc : Bool) (hlen : len < 2 ^ 63) :
    (∀ pnalloc, HostRight (slice h 0 len) pnalloc (validateHost pnalloc h len alloc)) ↔
      Invalid (slice h 0 len) ∨ DotsAgree (slice h 0 len) := by
  have hscan := hostLoop_scanned h len 0 ⟨len, false, alloc⟩ (slice_self h 0 ▸ Scanned.nil len alloc)
  rw [Nat.zero_add] at hscan
  cases hloop : hostLoop h len 0 ⟨len, false, alloc⟩ with
  | none =>
      rw [hloop] at hscan
      refine iff_of_true (fun pnalloc => ?_) (.inl hscan)
      rw [validateHost, hloop]
      refine ⟨List.forall_mem_nil _, .inl ⟨Int.le_refl 0, Int.natCast_nonneg _⟩, fun n hn hrc => ?_⟩
      exact absurd (Int.ofNat_inj.mp hrc) (Nat.ne_of_lt hn)
  | some s =>
      rw [hloop] at hscan
      obtain ⟨name, hname, hlast, hinitial, hagree⟩ := hscan.nameOf (slice_length h 0 len)
      have hout : ∀ pnalloc, validateHost pnalloc h len alloc = nameOut pnalloc h s.alloc (nameSize name s.dot) := by
        intro pnalloc
        rw [validateHost, hloop]
        dsimp only
        rw [hlast]
        rfl
      have hvalid := hscan.valid
      simp only [hout, hvalid, false_or, hagree]
      refine ⟨fun hright => agree_of_right hlen hname hinitial (hright _), fun h pnalloc => ?_⟩
      exact right_of_agree hlen hscan hname hinitial h

theorem validateHost_right_iff_port :
    let h : Nat → UInt8 := fun i => (ngxString "Localhost:80").getD i 0
    (validateHost (fun _ => some h) h 12 false).rc = 9 ∧
      ∀ pnalloc, HostRight (slice h 0 12) pnalloc (validateHost pnalloc h 12 false) := by
  intro h
  have hrc : (validateHost (fun _ => some h) h 12 false).rc = 9 := by decide
  have hdot : 46 ∉ slice h 0 12 := by decide
  refine ⟨hrc, (validateHost_right_iff h 12 false (by decide)).mpr (.inr fun name port heq _ => ?_)⟩
  rw [heq] at hdot
  refine .inl (iff_of_false (fun hport => hdot ?_) fun hname => hdot ?_)
  · exact List.mem_append_right _ (List.mem_cons_of_mem _ (List.mem_of_getLast? hport))
  · exact List.mem_append_left _ (List.mem_of_getLast? hname)

-- A dot in front of the ':' stays, and one at the end of a host without a name is taken from the size 0.
theorem port_keeps_dot :
    let h : Nat → UInt8 := fun i => (ngxString "a.:80").getD i 0
    let h' : Nat → UInt8 := fun i => (ngxString ":a.").getD i 0
    (validateHost (fun _ => some h) h 5 false).rc = 2 ∧
      ¬HostRight (slice h 0 5) (fun _ => some h) (validateHost (fun _ => some h) h 5 false) ∧
      (validateHost (fun _ => none) h' 3 false).asked = [2 ^ 64 - 1] ∧
      ¬HostRight (slice h' 0 3) (fun _ => none) (validateHost (fun _ => none) h' 3 false) := by
  intro h h'
  have hrc : (validateHost (fun _ => some h) h 5 false).rc = 2 := by decide
  have hasked : (validateHost (fun _ => none) h' 3 false).asked = [2 ^ 64 - 1] := by decide
  refine ⟨hrc, fun hright => ?_, hasked, fun hright => ?_⟩
  · obtain ⟨mem, name, -, hname, hbytes, -⟩ := hright.name 2 Nat.two_pos hrc
    have hthis : NameOf (slice h 0 5) (ngxString "a.") := .inr ⟨ngxString "80", by decide +kernel, by decide⟩
    have hdot : (withoutDot (ngxString "a.")).length = 1 := by decide
    have hlength := congrArg List.length hbytes
    rw [nameOf_unique hthis hname, slice_length, List.length_map, hdot] at hlength
    cases hlength
  · have := hright.asked (2 ^ 64 - 1) (hasked ▸ List.mem_singleton_self _)
    rw [slice_length] at this
    omega

end Validate

end Nginx.HttpHost
