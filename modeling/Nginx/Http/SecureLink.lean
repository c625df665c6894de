import Nginx.Core.Base64
import Nginx.Core.Md5
import Nginx.Core.Printf
import Nginx.Http.Memcached

namespace Nginx.SecureLink

open Base64 Digest
open Printf (digitsValue)

inductive Rc where
  | ok
  | error
deriving DecidableEq

-- The positions of hash_buf that are written, the value of v, where none is v->not_found, and ctx->expires
structure Outcome where
  rc : Rc
  writes : List Nat
  value : Option Bytes
  expires : Option Bytes
deriving DecidableEq

-- ngx_atotm has the body of ngx_atoof.
def atotm (line : Bytes) (n : Nat) : Int := Memcached.atoof line n

-- ngx_strlchr(val.data, last, ','): what is in front of the ',' and what is behind it
def hashPart (val : Bytes) : Bytes := val.takeWhile (· ≠ 44)

def timePart (val : Bytes) : Option Bytes := (val.dropWhile (· ≠ 44)).tail?

-- From the test of val.len on
def checkHash (val : Bytes) (expires : Int) (ctx md5Value : Option Bytes) (buffer : Bytes) (now : Int) : Outcome :=
  if 24 < val.length then ⟨.ok, [], none, ctx⟩
  else
    match decodeBase64url val with
    | none => ⟨.ok, [], none, ctx⟩
    | some hash =>
      if hash.length ≠ 16 then ⟨.ok, List.range hash.length, none, ctx⟩
      else
        match md5Value with
        | none => ⟨.error, List.range hash.length, none, ctx⟩
        | some text =>
          if hash ≠ md5 buffer text then ⟨.ok, List.range hash.length, none, ctx⟩
          else
            ⟨.ok, List.range hash.length,
              some (if expires ≠ 0 ∧ expires < now then ngxString "0" else ngxString "1"), ctx⟩

-- ngx_http_secure_link_variable with both of the expressions and no secret: none is a value that ngx_http_complex_value
-- does not get, and buffer is what the buffer of md5 holds at first.
def secureLinkVariable (variableValue md5Value : Option Bytes) (pcalloc : Bool) (buffer : Bytes) (now : Int) : Outcome :=
  match variableValue with
  | none => ⟨.error, [], none, none⟩
  | some val =>
    match timePart val with
    | none => checkHash val 0 none md5Value buffer now
    | some p =>
      let expires := atotm p p.length
      if expires ≤ 0 then ⟨.ok, [], none, none⟩
      else if pcalloc then checkHash (hashPart val) expires (some p) md5Value buffer now
      else ⟨.error, [], none, none⟩

-- The text of a digest, with the padding or without it
def Encodes (text digest : Bytes) : Prop :=
  text = encodeBase64url digest ∨ text = encodeBase64url digest ++ [61, 61]

def Decimal (t : Bytes) : Prop := t ≠ [] ∧ ∀ c ∈ t, 48 ≤ c ∧ c ≤ 57

def Valid (val digest : Bytes) : Prop :=
  Encodes (hashPart val) digest ∧ ∀ t, timePart val = some t → Decimal t ∧ 0 < digitsValue 0 t

def Before (val : Bytes) (now : Int) : Prop := ∃ t, timePart val = some t ∧ (digitsValue 0 t : Int) < now

structure LinkRight (val digest : Bytes) (now : Int) (out : Outcome) : Prop where
  writes : ∀ i ∈ out.writes, i < 16
  found : out.rc = .ok → (out.value.isSome = true ↔ Valid val digest)
  value : ∀ v, out.value = some v → (v = ngxString "0" ∧ Before val now) ∨ (v = ngxString "1" ∧ ¬Before val now)

-- A time is read modulo 2^64, with a sign.
def Taken (val : Bytes) : Prop :=
  ∀ t, timePart val = some t → Decimal t ∧ 0 < toInt64 (digitsValue 0 t)

def sextet (c : UInt8) : UInt8 := basis64url.getD c.toNat 77

-- When the time is taken, 23 or 24 characters are decoded too, and four bits of the last one of 22 are not looked at.
structure LinkClear (val digest : Bytes) (now : Int) : Prop where
  small : Taken val → (hashPart val).length ≤ 24 → (∀ c ∈ textOf (hashPart val), sextet c ≠ 77) →
    (textOf (hashPart val)).length ≤ 22
  canonical : Taken val → (hashPart val).length ≤ 24 → ∀ init c c', textOf (hashPart val) = init ++ [c] →
    encodeBase64url digest = init ++ [c'] → sextet c ≠ 77 → sextet c &&& 48 = sextet c' → Encodes (hashPart val) digest
  time : Encodes (hashPart val) digest → ∀ t, timePart val = some t → Decimal t → 0 < digitsValue 0 t →
    0 < toInt64 (digitsValue 0 t) ∧ (toInt64 (digitsValue 0 t) < now ↔ (digitsValue 0 t : Int) < now)

section Time

theorem atoofLoop_toInt64 (line : Bytes) (n : Nat) :
    Memcached.atoofLoop (toInt64 n) line line.length =
      if ∀ c ∈ line, 48 ≤ c ∧ c ≤ 57 then some (toInt64 (digitsValue n line)) else none := by
  induction line generalizing n with
  | nil => simp [Memcached.atoofLoop, digitsValue]
  | cons c line ih =>
      rw [List.length_cons, Memcached.atoofLoop]
      by_cases hdigit : 48 ≤ c ∧ c ≤ 57
      · have hnot : ¬(c < 48 ∨ 57 < c) := by
          rw [not_or]
          exact ⟨UInt8.not_lt.mpr hdigit.1, UInt8.not_lt.mpr hdigit.2⟩
        have hlow : 48 ≤ c.toNat := UInt8.le_iff_toNat_le.mp hdigit.1
        have hvalue : (n : Int) * 10 + (c.toNat - 48) = (10 * n + (c.toNat - 48) : Nat) := by omega
        rw [if_neg hnot, toInt64_mul_add, hvalue, ih]
        simp only [List.forall_mem_cons, hdigit, true_and]
        rfl
      · have hbad : c < 48 ∨ 57 < c := by
          rw [not_and_or, UInt8.not_le, UInt8.not_le] at hdigit
          exact hdigit
        rw [if_pos hbad, if_neg (fun h => hdigit (h c List.mem_cons_self))]

-- What ngx_atotm gives when it is positive
theorem atotm_pos_iff (t : Bytes) :
    (0 < atotm t t.length ↔ Decimal t ∧ 0 < toInt64 (digitsValue 0 t)) ∧
      (0 < atotm t t.length → atotm t t.length = toInt64 (digitsValue 0 t)) := by
  have hloop := atoofLoop_toInt64 t 0
  have hzero : toInt64 (0 : Nat) = 0 := by decide
  rw [hzero] at hloop
  rw [atotm, Memcached.atoof, hloop]
  by_cases hne : t = []
  · rw [hne]
    exact ⟨iff_of_false (by decide) fun h => h.1.1 rfl, fun h => absurd h (by decide)⟩
  · rw [if_neg (fun h => hne (List.length_eq_zero_iff.mp h))]
    by_cases hdigits : ∀ c ∈ t, 48 ≤ c ∧ c ≤ 57
    · rw [if_pos hdigits]
      dsimp only
      split
      · rename_i hneg
        exact ⟨iff_of_false (by decide) fun h => by omega, fun h => absurd h (by decide)⟩
      · exact ⟨⟨fun h => ⟨⟨hne, hdigits⟩, h⟩, fun h => h.2⟩, fun _ => rfl⟩
    · rw [if_neg hdigits]
      exact ⟨iff_of_false (by decide) fun h => hdigits h.1.2, fun h => absurd h (by decide)⟩

end Time

section Hash

variable {val text buffer digest : Bytes} {expires now : Int} {ctx : Option Bytes}

theorem hashPart_of_none (h : timePart val = none) : hashPart val = val := by
  have hdrop : val.dropWhile (· ≠ 44) = [] := by
    cases hrest : val.dropWhile (· ≠ 44) with
    | nil => rfl
    | cons c rest =>
        rw [timePart, hrest] at h
        cases h
  have hsplit := List.takeWhile_append_dropWhile (l := val) (p := fun c : UInt8 => decide (c ≠ 44))
  rw [hdrop, List.append_nil] at hsplit
  exact hsplit

-- The text of a digest is decoded to it.
theorem decode_of_encodes (hdigest : digest.length = 16) (h : Encodes val digest) :
    val.length ≤ 24 ∧ decodeBase64url val = some digest := by
  obtain ⟨hdecode, hvalid⟩ := decodeText_encodeText url_coding digest
  have hlength : (encodeBase64url digest).length = 22 := by
    rw [encodeBase64url, encodeText_length, hdigest]
  have htext : textOf val = encodeBase64url digest := by
    have hplain : ∀ c ∈ encodeBase64url digest, decide (c ≠ 61) = true := fun c hc => by simpa using (hvalid c hc).1
    obtain rfl | rfl := h
    · rw [textOf, ← List.append_nil (encodeBase64url digest), List.takeWhile_append_of_pos hplain]
      rfl
    · rw [textOf, List.takeWhile_append_of_pos hplain]
      exact List.append_nil _
  refine ⟨?_, (decodeInternal_eq_some_iff _ _ _).mpr ?_⟩
  · obtain rfl | rfl := h
    · omega
    · rw [List.length_append, hlength]
      decide
  · rw [htext, hlength]
    exact ⟨fun c hc => (hvalid c hc).2, by decide, hdecode⟩

-- What is decoded to 16 bytes is a text of theirs, up to the bits that are not looked at.
theorem text_of_decode {hash : Bytes} (h : decodeBase64url val = some hash) :
    (∀ c ∈ textOf val, sextet c ≠ 77) ∧ hash.length = 3 * (textOf val).length / 4 ∧
      (hash.length = 16 → (textOf val).length = 22 ∧ ∃ init c c', textOf val = init ++ [c] ∧
        encodeBase64url hash = init ++ [c'] ∧ sextet c' = sextet c &&& 48) := by
  obtain ⟨hvalid, hone, rfl⟩ := (decodeInternal_eq_some_iff _ _ _).mp h
  have hlength := decodeText_length (fun c => basis64url.getD c.toNat 77) (textOf val) hone
  refine ⟨hvalid, hlength, fun h16 => ?_⟩
  have h22 : (textOf val).length = 22 := by omega
  exact ⟨h22, encodeText_decodeText url_coding (textOf val) hvalid (by rw [h22])⟩

-- The text of a digest may end with other characters that are decoded to it.
theorem decode_of_text {init : Bytes} {c c' : UInt8} (hdigest : digest.length = 16) (htext : textOf val = init ++ [c])
    (hencode : encodeBase64url digest = init ++ [c']) (hc : sextet c ≠ 77) (hlast : sextet c &&& 48 = sextet c') :
    decodeBase64url val = some digest := by
  obtain ⟨hdecode, hvalid⟩ := decodeText_encodeText url_coding digest
  change encodeText _ digest = init ++ [c'] at hencode
  rw [hencode] at hdecode hvalid
  obtain ⟨hinit, hc'⟩ := List.forall_mem_append.mp hvalid
  have hall : ∀ d ∈ textOf val, sextet d ≠ 77 := by
    rw [htext]
    exact List.forall_mem_append.mpr ⟨fun d hd => (hinit d hd).2, List.forall_mem_singleton.mpr hc⟩
  have h22 : (textOf val).length = 22 := by
    have hlength := encodeText_length (fun v => alphabetUrl.getD v.toNat 0) digest
    rw [hencode, hdigest, List.length_append, List.length_singleton] at hlength
    rw [htext, List.length_append, List.length_singleton, hlength]
  obtain ⟨init', e, e', hsplit, hencode', hlast'⟩ := encodeText_decodeText url_coding (textOf val) hall (by rw [h22])
  obtain ⟨rfl, hlastChar⟩ := List.append_inj' (htext.symm.trans hsplit) rfl
  obtain rfl := (List.cons.inj hlastChar).1
  obtain ⟨hdecode', hvalid'⟩ := decodeText_encodeText url_coding (decodeText (fun c => basis64url.getD c.toNat 77) (textOf val))
  rw [hencode'] at hdecode' hvalid'
  have hsame : e' = c' := by
    have he' := (hvalid' e' (List.mem_append_right _ (List.mem_singleton_self e'))).2
    have hback := (url_coding.alphabet_basis e' he').2
    have hback' := (url_coding.alphabet_basis c' (hc' c' (List.mem_singleton_self c')).2).2
    rw [← hback, ← hback', hlast']
    exact congrArg (fun v : UInt8 => alphabetUrl.getD v.toNat 0) hlast
  rw [hsame, hdecode] at hdecode'
  refine (decodeInternal_eq_some_iff _ _ _).mpr ⟨hall, by rw [h22]; decide, hdecode'.symm⟩

-- What is left of the value is compared with the digest.
theorem checkHash_spec (val text buffer : Bytes) (expires now : Int) (ctx : Option Bytes) :
    let out := checkHash val expires ctx (some text) buffer now
    out.rc = .ok ∧
      out.writes = (if val.length ≤ 24 then List.range ((decodeBase64url val).getD []).length else []) ∧
      out.value = if val.length ≤ 24 ∧ decodeBase64url val = some (md5 buffer text) then
        some (if expires ≠ 0 ∧ expires < now then ngxString "0" else ngxString "1") else none := by
  have hdigest : (md5 buffer text).length = 16 := md5Final_length _
  dsimp only
  rw [checkHash]
  generalize (if expires ≠ 0 ∧ expires < now then ngxString "0" else ngxString "1") = value
  by_cases hlong : 24 < val.length
  · have hnot : ¬val.length ≤ 24 := Nat.not_le.mpr hlong
    rw [if_pos hlong, if_neg hnot, if_neg fun h => hnot h.1]
    exact ⟨rfl, rfl, rfl⟩
  · have hle := Nat.not_lt.mp hlong
    rw [if_neg hlong, if_pos hle]
    cases hdecode : decodeBase64url val with
    | none =>
        rw [if_neg fun h => absurd h.2 nofun]
        exact ⟨rfl, rfl, rfl⟩
    | some hash =>
        dsimp only
        by_cases hsame : hash = md5 buffer text
        · have hsize : ¬hash.length ≠ 16 := not_not.mpr (hsame ▸ hdigest)
          rw [if_neg hsize, if_neg (not_not.mpr hsame), if_pos ⟨hle, congrArg some hsame⟩]
          exact ⟨rfl, rfl, rfl⟩
        · have hother : ¬(val.length ≤ 24 ∧ some hash = some (md5 buffer text)) := fun h => hsame (Option.some.inj h.2)
          rw [if_pos hsame, if_neg hother]
          split
          · exact ⟨rfl, rfl, rfl⟩
          · exact ⟨rfl, rfl, rfl⟩

end Hash

section Variable

variable {val text buffer : Bytes} {now : Int}

-- The value is refused for its time, or the part in front of the ',' is compared.
theorem secureLinkVariable_cases (val text buffer : Bytes) (now : Int) (pcalloc : Bool) :
    let out := secureLinkVariable (some val) (some text) pcalloc buffer now
    (¬Taken val ∧ out.rc = .ok ∧ out.writes = [] ∧ out.value = none) ∨
      Taken val ∧ ((pcalloc = false ∧ out.rc = .error ∧ out.writes = [] ∧ out.value = none) ∨
        ∃ expires ctx, out = checkHash (hashPart val) expires ctx (some text) buffer now ∧
          (timePart val = none ∧ expires = 0 ∨
            ∃ t, timePart val = some t ∧ 0 < expires ∧ expires = toInt64 (digitsValue 0 t))) := by
  dsimp only
  rw [secureLinkVariable]
  cases htime : timePart val with
  | none =>
      refine .inr ⟨fun t ht => absurd (htime.symm.trans ht) nofun, .inr ⟨0, none, ?_, .inl ⟨rfl, rfl⟩⟩⟩
      rw [hashPart_of_none htime]
  | some t =>
      obtain ⟨hpos, hvalue⟩ := atotm_pos_iff t
      have htaken : Taken val ↔ 0 < atotm t t.length := by
        rw [hpos]
        refine ⟨fun h => h t htime, fun h t' ht' => ?_⟩
        obtain rfl := Option.some.inj (htime.symm.trans ht')
        exact h
      dsimp only
      by_cases hrefused : atotm t t.length ≤ 0
      · rw [if_pos hrefused]
        exact .inl ⟨fun h => by have := htaken.mp h; omega, rfl, rfl, rfl⟩
      · have hmore : 0 < atotm t t.length := by omega
        rw [if_neg hrefused]
        cases pcalloc with
        | false => exact .inr ⟨htaken.mpr hmore, .inl ⟨rfl, rfl, rfl, rfl⟩⟩
        | true => exact .inr ⟨htaken.mpr hmore, .inr ⟨_, _, rfl, .inr ⟨t, rfl, hmore, hvalue hmore⟩⟩⟩

-- A time that is taken is positive also as it is written.
theorem Taken.positive (htaken : Taken val) {t : Bytes} (ht : timePart val = some t) :
    Decimal t ∧ 0 < digitsValue 0 t := by
  obtain ⟨hdecimal, hpos⟩ := htaken t ht
  refine ⟨hdecimal, Nat.pos_of_ne_zero fun hzero => ?_⟩
  rw [hzero] at hpos
  exact absurd hpos (by decide)

theorem valid_of_taken (htaken : Taken val) {digest : Bytes} :
    Valid val digest ↔ Encodes (hashPart val) digest :=
  ⟨fun h => h.1, fun h => ⟨h, fun _ ht => htaken.positive ht⟩⟩

theorem clear_of_right
    (hright : LinkRight val (md5 buffer text) now (secureLinkVariable (some val) (some text) true buffer now)) :
    LinkClear val (md5 buffer text) now := by
  have hdigest : (md5 buffer text).length = 16 := md5Final_length _
  have hcases := secureLinkVariable_cases val text buffer now true
  dsimp only at hcases
  generalize secureLinkVariable (some val) (some text) true buffer now = out at hright hcases
  obtain ⟨hwrites, hfound, hvalue⟩ := hright
  obtain ⟨hnot, hrc, -, hnone⟩ | ⟨htaken, ⟨hfalse, -⟩ | ⟨expires, ctx, rfl, htime⟩⟩ := hcases
  · refine ⟨fun htaken => absurd htaken hnot, fun htaken => absurd htaken hnot, fun hencodes t ht hdecimal hpos => ?_⟩
    have hvalid : Valid val (md5 buffer text) := by
      refine ⟨hencodes, fun t' ht' => ?_⟩
      obtain rfl := Option.some.inj (ht.symm.trans ht')
      exact ⟨hdecimal, hpos⟩
    have hsome := (hfound hrc).mpr hvalid
    rw [hnone] at hsome
    cases hsome
  · cases hfalse
  · obtain ⟨hrc, hout, hset⟩ := checkHash_spec (hashPart val) text buffer expires now ctx
    have hfound := (hfound hrc).trans (valid_of_taken htaken)
    rw [hset] at hfound hvalue
    rw [hout] at hwrites
    constructor
    · intro _ hle hvalid
      by_contra hmore
      have hshort := (List.takeWhile_prefix (l := hashPart val) (p := fun c : UInt8 => decide (c ≠ 61))).length_le
      have hlength : (textOf (hashPart val)).length ≤ 24 := Nat.le_trans hshort hle
      have hone : (textOf (hashPart val)).length % 4 ≠ 1 := by omega
      have hdecode : decodeBase64url (hashPart val) = some _ := (decodeInternal_eq_some_iff _ _ _).mpr ⟨hvalid, hone, rfl⟩
      rw [if_pos hle, hdecode, Option.getD_some, decodeText_length _ _ hone] at hwrites
      have hout : 16 < 16 := hwrites 16 (List.mem_range.mpr (by omega))
      exact Nat.lt_irrefl _ hout
    · intro _ hle init c c' htext hencode hc hlast
      apply hfound.mp
      rw [if_pos ⟨hle, decode_of_text hdigest htext hencode hc hlast⟩]
      rfl
    · intro hencodes t ht _ hpos
      obtain ⟨hle, hdecode⟩ := decode_of_encodes hdigest hencodes
      obtain ⟨hnone, -⟩ | ⟨t', ht', hexpires, heq⟩ := htime
      · exact absurd (ht.symm.trans hnone) (Option.some_ne_none t)
      · obtain rfl := Option.some.inj (ht.symm.trans ht')
        rw [← heq]
        refine ⟨hexpires, ?_⟩
        rw [if_pos ⟨hle, hdecode⟩] at hvalue
        have hbefore : Before val now ↔ (digitsValue 0 t : Int) < now := by
          refine ⟨fun ⟨t', ht', hlt⟩ => ?_, fun hlt => ⟨t, ht, hlt⟩⟩
          obtain rfl := Option.some.inj (ht.symm.trans ht')
          exact hlt
        have hones : ngxString "0" ≠ ngxString "1" := by decide
        rw [← hbefore]
        by_cases hearly : expires < now
        · rw [if_pos ⟨by omega, hearly⟩] at hvalue
          obtain ⟨-, hyes⟩ | ⟨hother, -⟩ := hvalue _ rfl
          · exact iff_of_true hearly hyes
          · exact absurd hother hones
        · rw [if_neg fun h => hearly h.2] at hvalue
          obtain ⟨hother, -⟩ | ⟨-, hno⟩ := hvalue _ rfl
          · exact absurd hother.symm hones
          · exact iff_of_false hearly hno

theorem right_of_clear (hclear : LinkClear val (md5 buffer text) now) (pcalloc : Bool) :
    LinkRight val (md5 buffer text) now (secureLinkVariable (some val) (some text) pcalloc buffer now) := by
  have hdigest : (md5 buffer text).length = 16 := md5Final_length _
  have hcases := secureLinkVariable_cases val text buffer now pcalloc
  dsimp only at hcases
  generalize secureLinkVariable (some val) (some text) pcalloc buffer now = out at hcases ⊢
  obtain ⟨hnot, hrc, hwrites, hvalue⟩ | ⟨htaken, ⟨-, hrc, hwrites, hvalue⟩ | ⟨expires, ctx, rfl, htime⟩⟩ := hcases
  · refine ⟨hwrites ▸ List.forall_mem_nil _, fun _ => ?_, fun v hv => absurd (hvalue.symm.trans hv) nofun⟩
    rw [hvalue]
    refine iff_of_false Bool.false_ne_true fun hvalid => hnot fun t ht => ?_
    obtain ⟨hdecimal, hpos⟩ := hvalid.2 t ht
    exact ⟨hdecimal, (hclear.time hvalid.1 t ht hdecimal hpos).1⟩
  · refine ⟨hwrites ▸ List.forall_mem_nil _, fun hok => ?_, fun v hv => absurd (hvalue.symm.trans hv) nofun⟩
    rw [hrc] at hok
    cases hok
  · obtain ⟨hrc, hout, hset⟩ := checkHash_spec (hashPart val) text buffer expires now ctx
    have hencodes : (hashPart val).length ≤ 24 ∧ decodeBase64url (hashPart val) = some (md5 buffer text) →
        Encodes (hashPart val) (md5 buffer text) := by
      intro hmatch
      obtain ⟨hvalid, -, htext⟩ := text_of_decode hmatch.2
      obtain ⟨-, init, c, c', hsplit, hencode, hlast⟩ := htext hdigest
      exact hclear.canonical htaken hmatch.1 init c c' hsplit hencode
        (hvalid c (hsplit ▸ List.mem_append_right _ (List.mem_singleton_self c))) hlast.symm
    constructor
    · rw [hout]
      intro i hi
      split at hi
      · rename_i hle
        cases hdecode : decodeBase64url (hashPart val) with
        | none =>
            rw [hdecode] at hi
            cases hi
        | some hash =>
            obtain ⟨hvalid, hlength, -⟩ := text_of_decode hdecode
            have hsmall := hclear.small htaken hle hvalid
            rw [hdecode, Option.getD_some, List.mem_range, hlength] at hi
            omega
      · cases hi
    · intro _
      rw [hset, valid_of_taken htaken]
      constructor
      · intro hsome
        split at hsome
        · rename_i hmatch
          exact hencodes hmatch
        · cases hsome
      · intro htext
        rw [if_pos (decode_of_encodes hdigest htext)]
        rfl
    · intro v hv
      rw [hset] at hv
      split at hv
      · rename_i hmatch
        obtain rfl := Option.some.inj hv
        obtain ⟨hnone, hzero⟩ | ⟨t, ht, hpos, heq⟩ := htime
        · rw [if_neg fun h => h.1 hzero]
          refine .inr ⟨rfl, fun ⟨t, ht, _⟩ => ?_⟩
          exact Option.some_ne_none t (ht.symm.trans hnone)
        · obtain ⟨hdecimal, hmore⟩ := htaken.positive ht
          have hiff := (hclear.time (hencodes hmatch) t ht hdecimal hmore).2
          rw [← heq] at hiff
          by_cases hearly : expires < now
          · rw [if_pos ⟨by omega, hearly⟩]
            exact .inl ⟨rfl, t, ht, hiff.mp hearly⟩
          · rw [if_neg fun h => hearly h.2]
            refine .inr ⟨rfl, fun ⟨t', ht', hlt⟩ => hearly (hiff.mpr ?_)⟩
            obtain rfl := Option.some.inj (ht.symm.trans ht')
            exact hlt
      · cases hv

-- The 16 bytes of the buffer are enough when the text is short enough, the value is right when the text has no other bits
-- than those of the digest, and the time when it is one of 63 bits or seen the same way.
theorem secureLink_right_iff (val text buffer : Bytes) (now : Int) :
    (∀ pcalloc, LinkRight val (md5 buffer text) now (secureLinkVariable (some val) (some text) pcalloc buffer now)) ↔
      LinkClear val (md5 buffer text) now :=
  ⟨fun hright => clear_of_right (hright true), fun hclear pcalloc => right_of_clear hclear pcalloc⟩

-- 24 characters fill 18 bytes. Of the text of a digest the last character may be another one, and a time of 2^64 + 1
-- is one in the past.
theorem long_text_overruns :
    let buffer : Bytes := List.replicate 64 0
    let long := ngxString "AAAAAAAAAAAAAAAAAAAAAAAA"
    let other := ngxString "1B2M2Y8AsgTpgAmY7PhCfh"
    let late := ngxString "1B2M2Y8AsgTpgAmY7PhCfg,18446744073709551617"
    let run := fun val => secureLinkVariable (some val) (some []) true buffer 1000
    (run long).writes = List.range 18 ∧ ¬LinkRight long (md5 buffer []) 1000 (run long) ∧
      (run other).value = some (ngxString "1") ∧ ¬LinkRight other (md5 buffer []) 1000 (run other) ∧
      (run late).value = some (ngxString "0") ∧ ¬LinkRight late (md5 buffer []) 1000 (run late) := by
  intro buffer long other late run
  have hlong : (run long).writes = List.range 18 := by decide
  have hother : (run other).value = some (ngxString "1") := by decide +kernel
  have hlate : (run late).value = some (ngxString "0") := by decide +kernel
  refine ⟨hlong, fun hright => ?_, hother, fun hright => ?_, hlate, fun hright => ?_⟩
  · have hout := hright.writes 17 (hlong ▸ List.mem_range.mpr (by decide))
    exact absurd hout (by decide)
  · have hencodes := ((hright.found (by decide +kernel)).mp (by rw [hother]; rfl)).1
    have hnot : hashPart other ≠ encodeBase64url (md5 buffer []) ∧
        hashPart other ≠ encodeBase64url (md5 buffer []) ++ [61, 61] := by decide +kernel
    exact hencodes.elim hnot.1 hnot.2
  · obtain ⟨-, t, ht, hlt⟩ | ⟨hone, -⟩ := hright.value _ hlate
    · have htime : timePart late = some (ngxString "18446744073709551617") := by decide
      obtain rfl := Option.some.inj (htime.symm.trans ht)
      exact absurd hlt (by decide)
    · exact absurd hone (by decide +kernel)

end Variable

end Nginx.SecureLink
