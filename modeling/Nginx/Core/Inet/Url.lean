import Nginx.Core.Inet

namespace Nginx.Inet

open Number

inductive Family where
  | unix
  | inet
  | inet6
deriving DecidableEq

-- The fields of an ngx_url_t that are filled in; addrs has the sun_path and the name of each address.
structure Url where
  host : Bytes := []
  portText : Bytes := []
  uri : Bytes := []
  port : Nat := 0
  family : Family := .inet
  noPort : Bool := false
  wildcard : Bool := false
  sin6Addr : Bytes := []
  addrs : List (Bytes × Bytes) := []
deriving DecidableEq

-- u->err, which is not set when there is no memory
abbrev Result := Except (Option String) Url

-- ngx_strlchr
def strlchr (s : Bytes) (c : UInt8) : Option Nat := s.findIdx? (· = c)

-- The bytes that the memory holds behind a text, from i on
def memory (behind : Nat → UInt8) (i len : Nat) : Bytes := (List.range len).map fun k => behind (i + k)

def validPort (n : Int) : Bool := 1 ≤ n ∧ n ≤ 65535

-- ngx_parse_unix_domain_url, where alloc is whether the pool has memory. In a text of less than five bytes len -= 5 wraps
-- round, and there is no ':' in front of last.
def parseUnixDomainUrl (alloc uriPart : Bool) (behind : Nat → UInt8) (url : Bytes) : Result :=
  let rest := url.drop 5
  let (path, uri) :=
    if url.length < 5 then (memory behind (5 - url.length) (2 ^ 64 + url.length - 5), [])
    else
      match if uriPart then strlchr rest 58 else none with
      | some colon => (rest.take colon, rest.drop (colon + 1))
      | none => (rest, [])
  if path = [] then .error (some "no path in the unix domain socket")
  else
    let len := (path.length + 1) % 2 ^ 64
    if 108 < len then .error (some "too long path in the unix domain socket")
    else if !alloc then .error none
    else
      .ok { host := path, uri, family := .unix, addrs := [((path.take (len - 1)).takeWhile (· ≠ 0), url.take (len + 4))] }

-- The first of '/' and '?'
def uriStart (url : Bytes) : Option Nat :=
  match strlchr url 63, strlchr url 47 with
  | some args, some uri => some (if args < uri then args else uri)
  | some args, none => some args
  | none, uri => uri

-- The first ':', when it is not behind the uri
def portStart (url : Bytes) : Option Nat :=
  match uriStart url, strlchr url 58 with
  | some uri, some port => if uri < port then none else some port
  | _, port => port

def inetHost (host : Bytes) (u : Url) : Result :=
  if host = [] then .error (some "no host") else .ok { u with host := if host = [42] then [] else host }

-- ngx_parse_inet_url with no_resolve set
def parseInetUrl (listen uriPart : Bool) (url : Bytes) : Result :=
  if (uriStart url).isSome ∧ (listen ∨ !uriPart) then .error (some "invalid host")
  else
    let last := (uriStart url).getD url.length
    let u : Url := { uri := url.drop last }
    match portStart url with
    | some port =>
        let text := (url.take last).drop (port + 1)
        if text = [] then .error (some "invalid port")
        else if !validPort (atoi text) then .error (some "invalid port")
        else inetHost (url.take port) { u with port := (atoi text).toNat, portText := text }
    | none =>
        if uriStart url = none ∧ listen ∧ atoi url ≠ -1 then
          if !validPort (atoi url) then .error (some "invalid port")
          else .ok { u with port := (atoi url).toNat, portText := url, wildcard := true }
        else inetHost (url.take last) { u with noPort := true }

def inet6Host (host : Bytes) (u : Url) : Result :=
  if host = [] then .error (some "no host")
  else
    match inet6Addr host with
    | none => .error (some "invalid IPv6 address")
    | some addr => .ok { u with host, family := .inet6, sin6Addr := addr, wildcard := addr = List.replicate 16 0 }

-- ngx_parse_inet6_url with no_resolve set. A ':' that is looked for behind ']' may stand behind the text, where the
-- length of the port is the largest size_t.
def parseInet6Url (listen uriPart : Bool) (behind : Nat → UInt8) (url : Bytes) : Result :=
  match strlchr url.tail 93 with
  | none => .error (some "invalid host")
  | some p =>
      let host := url.tail.take p
      let port := url.tail.drop (p + 1)
      let uri := strlchr port 47
      if uri.isSome ∧ (listen ∨ !uriPart) then .error (some "invalid host")
      else
        let u : Url := { uri := port.drop (uri.getD port.length) }
        if (port ++ memory behind 0 1).head? = some 58 then
          let text := if port = [] then memory behind 1 (2 ^ 64 - 1) else port.tail
          if text = [] then .error (some "invalid port")
          else if !validPort (atoi text) then .error (some "invalid port")
          else inet6Host host { u with port := (atoi text).toNat, portText := text }
        else inet6Host host { u with noPort := true }

-- A text that is taken for a path of a unix domain socket
def IsUnix (behind : Nat → UInt8) (url : Bytes) : Prop :=
  strncasecmp (url ++ memory behind 0 5) (ngxString "unix:") 5 = some 0

instance (behind : Nat → UInt8) (url : Bytes) : Decidable (IsUnix behind url) := inferInstanceAs (Decidable (_ = _))

-- ngx_parse_url with no_resolve set
def parseUrl (alloc listen uriPart : Bool) (behind : Nat → UInt8) (url : Bytes) : Result :=
  let first := (url ++ memory behind 0 1).head?
  if IsUnix behind url then parseUnixDomainUrl alloc uriPart behind url
  else if (first = some 58 ∨ first = some 47) ∧ !listen then .error (some "invalid host")
  else if first = some 91 then parseInet6Url listen uriPart behind url
  else parseInetUrl listen uriPart url

theorem strlchr_append {s : Bytes} {c : UInt8} (h : c ∉ s) (t : Bytes) :
    strlchr (s ++ t) c = (strlchr t c).map (· + s.length) := by
  have hnone : s.findIdx? (· = c) = none := by
    rw [List.findIdx?_eq_none_iff]
    intro b hb
    exact decide_eq_false fun heq => h (heq ▸ hb)
  rw [strlchr, List.findIdx?_append, hnone, Option.none_or, strlchr]

theorem strlchr_here (c : UInt8) (t : Bytes) : strlchr (c :: t) c = some 0 := by
  rw [strlchr, List.findIdx?_cons, if_pos (decide_eq_true rfl)]

theorem findIdx_some {s : Bytes} {p : UInt8 → Bool} {i : Nat} (h : s.findIdx? p = some i) :
    ∃ c t, s = s.take i ++ c :: t ∧ (s.take i).length = i ∧ p c = true ∧ ∀ b ∈ s.take i, p b = false := by
  obtain ⟨hi, hp, hbefore⟩ := List.findIdx?_eq_some_iff_getElem.mp h
  refine ⟨s[i], s.drop (i + 1), ?_, by rw [List.length_take]; omega, hp, fun b hb => ?_⟩
  · rw [← List.drop_eq_getElem_cons hi, List.take_append_drop]
  · obtain ⟨j, hj, rfl⟩ := List.getElem_of_mem hb
    rw [List.length_take] at hj
    rw [List.getElem_take]
    simpa using hbefore j (by omega)

theorem strlchr_some {s : Bytes} {c : UInt8} {i : Nat} (h : strlchr s c = some i) :
    ∃ t, s = s.take i ++ c :: t ∧ (s.take i).length = i ∧ c ∉ s.take i := by
  obtain ⟨b, t, hs, hlen, hb, hbefore⟩ := findIdx_some h
  obtain rfl : b = c := of_decide_eq_true hb
  exact ⟨t, hs, hlen, fun hmem => absurd rfl (of_decide_eq_false (hbefore b hmem))⟩

theorem uriStart_eq (url : Bytes) : uriStart url = url.findIdx? fun c => c = 47 ∨ c = 63 := by
  have hne : ¬(47 : UInt8) = 63 := by decide
  have hne' : ¬(63 : UInt8) = 47 := by decide
  induction url with
  | nil => rfl
  | cons c url ih =>
      rw [List.findIdx?_cons, ← ih]
      simp only [uriStart, strlchr, List.findIdx?_cons]
      by_cases hslash : c = 47
      · subst hslash
        simp only [hne, decide_false, decide_true, true_or, if_true]
        cases url.findIdx? fun b => decide (b = 63) <;> simp
      by_cases hargs : c = 63
      · subst hargs
        simp only [hne', decide_false, decide_true, or_true, if_true]
        cases url.findIdx? fun b => decide (b = 47) <;> simp
      · simp only [hslash, hargs, or_self, decide_false]
        cases url.findIdx? fun b => decide (b = 63) with
        | none =>
            cases url.findIdx? fun b => decide (b = 47) <;> simp
        | some args =>
            cases url.findIdx? fun b => decide (b = 47) with
            | none => simp
            | some uri =>
                simp only [Bool.false_eq_true, if_false, Option.map_some, Nat.add_lt_add_iff_right]
                split <;> rfl

-- What follows the host of a text, where no port is none
def portPart (port : Option Bytes) : Bytes :=
  match port with
  | none => []
  | some text => 58 :: text

def PortText (port : Option Bytes) (n : Nat) : Prop :=
  match port with
  | none => n = 0
  | some text => numeral 10 text = some n ∧ 1 ≤ n ∧ n ≤ 65535

def UriText (uri : Bytes) : Prop := uri = [] ∨ uri.head? = some 47

-- An IPv4 literal or a host name
structure HostText (host : Bytes) : Prop where
  ne_nil : host ≠ []
  ne_star : host ≠ [42]
  no_bracket : host.head? ≠ some 91
  no_delimiter : 58 ∉ host ∧ 47 ∉ host ∧ 63 ∉ host

theorem numeralFrom_decimal {s : Bytes} {n v : Nat} (h : numeralFrom 10 n s = some v) {c : UInt8} (hc : c ∈ s) :
    (digitOf 10 c).isSome := by
  induction s generalizing n with
  | nil => cases hc
  | cons b s ih =>
      rw [numeralFrom, Option.bind_eq_some_iff] at h
      obtain ⟨d, hd, hv⟩ := h
      cases hc with
      | head => rw [hd]; rfl
      | tail _ hmem => exact ih hv hmem

theorem PortText.no_delimiter {port : Option Bytes} {n : Nat} (h : PortText port n) : 47 ∉ portPart port ∧ 63 ∉ portPart port := by
  have hdigit : digitOf 10 47 = none ∧ digitOf 10 63 = none := by decide
  cases port with
  | none => exact ⟨List.not_mem_nil, List.not_mem_nil⟩
  | some text =>
      obtain ⟨hn, -, -⟩ := h
      rw [numeral] at hn
      split at hn
      · cases hn
      · constructor
        · rintro (_ | ⟨_, hmem⟩)
          have hsome := numeralFrom_decimal hn hmem
          rw [hdigit.1] at hsome
          cases hsome
        · rintro (_ | ⟨_, hmem⟩)
          have hsome := numeralFrom_decimal hn hmem
          rw [hdigit.2] at hsome
          cases hsome

theorem validPort_of {text : Bytes} {n : Nat} (h : PortText (some text) n) : text ≠ [] ∧ atoi text = n ∧ validPort (atoi text) = true := by
  obtain ⟨hn, hlow, hhigh⟩ := h
  have hne : text ≠ [] := by
    rintro rfl
    cases hn
  have hatoi : atoi text = n := by
    have hsmall := atoi_small hn (by omega)
    rwa [Nat.mod_eq_of_lt (by omega)] at hsmall
  refine ⟨hne, hatoi, ?_⟩
  rw [hatoi, validPort]
  exact decide_eq_true ⟨by omega, by omega⟩

-- What is in front of the uri has neither '/' nor '?'.
theorem uriStart_append {s uri : Bytes} (hs : 47 ∉ s ∧ 63 ∉ s) (huri : UriText uri) :
    uriStart (s ++ uri) = if uri = [] then none else some s.length := by
  have hnone : s.findIdx? (fun c => decide (c = 47 ∨ c = 63)) = none := by
    rw [List.findIdx?_eq_none_iff]
    intro c hc
    apply decide_eq_false
    rintro (rfl | rfl)
    · exact hs.1 hc
    · exact hs.2 hc
  rw [uriStart_eq, List.findIdx?_append, hnone, Option.none_or]
  cases uri with
  | nil => rfl
  | cons c uri =>
      obtain hnil | hhead := huri
      · cases hnil
      obtain rfl : c = 47 := by simpa using hhead
      simp [List.findIdx?_cons]

theorem portStart_pieces {host uri : Bytes} {port : Option Bytes} {n : Nat} (hhost : HostText host) (hport : PortText port n)
    (huri : UriText uri) : portStart (host ++ portPart port ++ uri) = port.map fun _ => host.length := by
  obtain ⟨hcolon, hslash, hargs⟩ := hhost.no_delimiter
  obtain ⟨hslash', hargs'⟩ := hport.no_delimiter
  have hstart := uriStart_append (s := host ++ portPart port) ⟨by simp [hslash, hslash'], by simp [hargs, hargs']⟩ huri
  rw [portStart, hstart, List.append_assoc, strlchr_append hcolon]
  cases port with
  | some text =>
      have hlt : ¬(host ++ 58 :: text).length < host.length := by
        rw [List.length_append]
        omega
      rw [portPart, List.cons_append, strlchr_here, Option.map_some, Nat.zero_add]
      split
      next uri' port' huri' hport' =>
          cases hport'
          split at huri'
          · cases huri'
          · cases huri'
            rw [if_neg hlt]
            rfl
      next => rfl
  | none =>
      rw [portPart, List.append_nil, List.nil_append]
      cases uri with
      | nil => rfl
      | cons c uri =>
          obtain hnil | hhead := huri
          · cases hnil
          obtain rfl : c = 47 := by simpa using hhead
          rw [if_neg (List.cons_ne_nil _ _)]
          cases hfind : strlchr (47 :: uri) 58 with
          | none => rfl
          | some j =>
              have hj : j ≠ 0 := by
                rintro rfl
                simp [strlchr, List.findIdx?_cons] at hfind
              rw [Option.map_some]
              dsimp only
              rw [if_pos (by omega)]
              rfl

theorem inetUrl_pieces {host uri : Bytes} {port : Option Bytes} {n : Nat} (hhost : HostText host) (hport : PortText port n)
    (huri : UriText uri) :
    parseInetUrl false true (host ++ portPart port ++ uri) =
      .ok { host, portText := port.getD [], uri, port := n, noPort := port.isNone } := by
  obtain ⟨hcolon, hslash, hargs⟩ := hhost.no_delimiter
  obtain ⟨hslash', hargs'⟩ := hport.no_delimiter
  have hstart := uriStart_append (s := host ++ portPart port) ⟨by simp [hslash, hslash'], by simp [hargs, hargs']⟩ huri
  have hlast : (uriStart (host ++ portPart port ++ uri)).getD (host ++ portPart port ++ uri).length = (host ++ portPart port).length := by
    rw [hstart]
    split
    next hnil => rw [hnil, List.append_nil]; rfl
    next => rfl
  rw [parseInetUrl, portStart_pieces hhost hport huri, hlast, if_neg (by simp)]
  dsimp only
  rw [List.take_left' rfl, List.drop_left' rfl]
  cases port with
  | some text =>
      obtain ⟨hne, hatoi, hvalid⟩ := validPort_of hport
      have htext : (host ++ portPart (some text)).drop (host.length + 1) = text := by
        rw [portPart, ← List.drop_drop, List.drop_left' rfl]
        rfl
      have hfront : (host ++ portPart (some text) ++ uri).take host.length = host := by
        rw [List.append_assoc, List.take_left' rfl]
      rw [Option.map_some]
      dsimp only
      rw [htext, hfront, if_neg hne, hvalid, hatoi, inetHost, if_neg hhost.ne_nil, if_neg hhost.ne_star]
      rfl
  | none =>
      obtain rfl : n = 0 := hport
      rw [Option.map_none]
      dsimp only
      rw [if_neg (by simp), portPart, List.append_nil, inetHost, if_neg hhost.ne_nil, if_neg hhost.ne_star]
      rfl

theorem inetAddr_no_bracket {text : Bytes} (h : inetAddr text ≠ inaddrNone) : 93 ∉ text := by
  have hdigit : digitOf 10 93 = none := by decide
  have hno : ∀ {s v}, numeralFrom 10 0 s = some v → 93 ∉ s := by
    intro s v hs hmem
    have hsome := numeralFrom_decimal hs hmem
    rw [hdigit] at hsome
    cases hsome
  obtain ⟨part, value, hparts⟩ := inetAddr_ne_none h
  have h0 := hno (hparts.value_eq 0)
  have h1 := hno (hparts.value_eq 1)
  have h2 := hno (hparts.value_eq 2)
  have h3 := hno (hparts.value_eq 3)
  rw [hparts.text_eq]
  simp [h0, h1, h2, h3]

-- digit stands in front of what is left of the text.
theorem inet6Loop_no_bracket {text : Bytes} {s out : Inet6} (hdigit : ∀ d, s.digit = some d → text <:+ d)
    (h : inet6Loop text s = some out) : 93 ∉ text := by
  have hhex : Number.hexDigit 93 = none := by decide
  induction text generalizing s with
  | nil => exact List.not_mem_nil
  | cons c rest ih =>
      have hrest : ∀ d, s.digit = some d → rest <:+ d := fun d hd => (List.suffix_cons c rest).trans (hdigit d hd)
      have hself : ∀ d, some rest = some d → rest <:+ d := fun d hd => Option.some.inj hd ▸ List.suffix_refl rest
      rw [inet6Loop] at h
      split at h
      next hcolon =>
          subst hcolon
          have htail : 93 ∉ rest → 93 ∉ (58 :: rest : Bytes) := fun hno hmem => hno (List.mem_of_ne_of_mem (by decide) hmem)
          split at h
          · split at h
            · exact htail (ih (s := { s with out := s.store s.word, digit := some rest, n := s.n - 1, nibbles := 0, word := 0 }) hself h)
            · cases h
          · split at h
            · exact htail (ih (s := { s with digit := some rest, zero := some s.out.length }) hself h)
            · cases h
      next =>
          split at h
          · split at h
            · cases h
            next d hd =>
                split at h
                · cases h
                · dsimp only at h
                  split at h
                  · cases h
                  next hne => exact fun hmem => inetAddr_no_bracket hne ((hdigit d hd).subset hmem)
          · split at h
            · cases h
            · split at h
              · cases h
              next d hd =>
                  rintro (_ | ⟨_, hmem⟩)
                  · rw [hhex] at hd
                    cases hd
                  · exact ih (s := { s with nibbles := s.nibbles + 1, word := s.word * 16 + d }) hrest h hmem

theorem inet6Addr_no_bracket {text addr : Bytes} (h : inet6Addr text = some addr) : 93 ∉ text := by
  unfold inet6Addr at h
  split at h
  · cases h
  · split at h
    · cases h
    next s hloop =>
        have hno := inet6Loop_no_bracket (s := {}) (by rintro d ⟨⟩) hloop
        intro hmem
        split at hno
        next hhead =>
            cases text with
            | nil => cases hhead
            | cons c text =>
                obtain rfl : c = 58 := by simpa using hhead
                exact hno (List.mem_of_ne_of_mem (by decide) hmem)
        next => exact hno hmem

theorem inet6Addr_ne_nil {text addr : Bytes} (h : inet6Addr text = some addr) : text ≠ [] := by
  rintro rfl
  cases h

theorem strlchr_bracket {host rest : Bytes} (h : 93 ∉ host) : strlchr (host ++ 93 :: rest) 93 = some host.length := by
  rw [strlchr_append h, strlchr_here, Option.map_some, Nat.zero_add]

theorem inet6Url_pieces {behind : Nat → UInt8} {host addr uri : Bytes} {port : Option Bytes} {n : Nat}
    (haddr : inet6Addr host = some addr) (hport : PortText port n) (huri : UriText uri) (hone : port = none ∨ uri = [])
    (hbehind : port = none → uri = [] → behind 0 ≠ 58) :
    parseInet6Url false true behind (91 :: (host ++ 93 :: (portPart port ++ uri))) =
      .ok { host, portText := port.getD [], uri, port := n, family := .inet6, noPort := port.isNone, sin6Addr := addr,
            wildcard := addr = List.replicate 16 0 } := by
  have hfront : (host ++ 93 :: (portPart port ++ uri)).take host.length = host := List.take_left' rfl
  have hback : (host ++ 93 :: (portPart port ++ uri)).drop (host.length + 1) = portPart port ++ uri := by
    rw [← List.drop_drop, List.drop_left' rfl]
    rfl
  have hhost : ∀ u : Url, inet6Host host u =
      .ok { u with host, family := .inet6, sin6Addr := addr, wildcard := addr = List.replicate 16 0 } := by
    intro u
    rw [inet6Host, if_neg (inet6Addr_ne_nil haddr), haddr]
  have hslash : (strlchr (portPart port ++ uri) 47).getD (portPart port ++ uri).length = (portPart port).length := by
    rw [strlchr_append hport.no_delimiter.1]
    cases uri with
    | nil => rw [List.append_nil]; rfl
    | cons c uri =>
        obtain hnil | hhead := huri
        · cases hnil
        obtain rfl : c = 47 := by simpa using hhead
        rw [strlchr_here, Option.map_some, Nat.zero_add, Option.getD_some]
  rw [parseInet6Url, List.tail_cons, strlchr_bracket (inet6Addr_no_bracket haddr)]
  dsimp only
  rw [hfront, hback, if_neg (by simp), hslash, List.drop_left' rfl]
  cases port with
  | some text =>
      obtain hnone | rfl := hone
      · cases hnone
      obtain ⟨hne, hatoi, hvalid⟩ := validPort_of hport
      rw [portPart, List.append_nil, List.cons_append, List.head?_cons, if_pos rfl, if_neg (List.cons_ne_nil _ _), List.tail_cons,
        if_neg hne, hvalid, hatoi, hhost]
      rfl
  | none =>
      obtain rfl : n = 0 := hport
      have hno : ¬(portPart none ++ uri ++ memory behind 0 1).head? = some 58 := by
        cases uri with
        | nil => simpa [portPart, memory] using hbehind rfl rfl
        | cons c uri =>
            obtain hnil | hhead := huri
            · cases hnil
            obtain rfl : c = 47 := by simpa using hhead
            rw [portPart, List.nil_append, List.cons_append, List.head?_cons]
            decide
      rw [if_neg hno, hhost]
      rfl

theorem portStart_some {url : Bytes} {port : Nat} (h : portStart url = some port) :
    strlchr url 58 = some port ∧ port < (uriStart url).getD url.length := by
  unfold portStart at h
  split at h
  next uri port' huri hport' =>
      split at h
      · cases h
      next hle =>
          cases h
          refine ⟨hport', ?_⟩
          rw [huri, Option.getD_some]
          have hne : port ≠ uri := by
            rintro rfl
            rw [uriStart_eq] at huri
            obtain ⟨c, t, hc, -, hp, -⟩ := findIdx_some huri
            obtain ⟨t', ht', -, -⟩ := strlchr_some hport'
            have hsame := List.append_cancel_left (hc.symm.trans ht')
            obtain rfl := List.head_eq_of_cons_eq hsame
            exact absurd (of_decide_eq_true hp) (by decide)
          omega
  next hnone =>
      refine ⟨h, ?_⟩
      cases huri : uriStart url with
      | none =>
          obtain ⟨t, ht, hlen, -⟩ := strlchr_some h
          have hall := congrArg List.length ht
          rw [List.length_append, hlen, List.length_cons] at hall
          rw [Option.getD_none]
          omega
      | some uri => exact absurd h (hnone uri port huri)

theorem inetHost_ok {host : Bytes} {u u' : Url} (h : inetHost host u = .ok u') :
    (if u'.host = [] then [42] else u'.host) = host ∧ u' = { u with host := u'.host } := by
  rw [inetHost] at h
  split at h
  · cases h
  next hne =>
      cases h
      refine ⟨?_, rfl⟩
      dsimp only
      by_cases hstar : host = [42]
      · rw [if_pos hstar, if_pos rfl, hstar]
      · rw [if_neg hstar, if_neg hne]

-- The text behind the host of a result, as it stood in the url
def Url.portPart (u : Url) : Bytes := Inet.portPart (if u.noPort then none else some u.portText)

theorem inetUrl_concat {url : Bytes} {u : Url} (h : parseInetUrl false true url = .ok u) :
    url = (if u.host = [] then [42] else u.host) ++ u.portPart ++ u.uri := by
  rw [parseInetUrl, if_neg (by simp)] at h
  dsimp only at h
  generalize hlast : (uriStart url).getD url.length = last at h
  split at h
  next port hport =>
      obtain ⟨hcolon, hlt⟩ := portStart_some hport
      rw [hlast] at hlt
      obtain ⟨t, ht, hlen, -⟩ := strlchr_some hcolon
      have htake : url.take last = url.take port ++ 58 :: (url.take last).drop (port + 1) := by
        conv_lhs => rw [← List.take_append_drop port (url.take last)]
        rw [List.take_take, Nat.min_eq_left (Nat.le_of_lt hlt)]
        have hget : port < (url.take last).length := by
          have hall := congrArg List.length ht
          rw [List.length_append, hlen, List.length_cons] at hall
          rw [List.length_take]
          omega
        have hbyte : (url.take last)[port] = 58 := by
          rw [List.getElem_take]
          have hmid : (url.take port ++ 58 :: t)[port]? = some 58 := by
            rw [List.getElem?_append_right (by omega), hlen, Nat.sub_self]
            rfl
          rw [← ht] at hmid
          exact (List.getElem?_eq_some_iff.mp hmid).2
        rw [List.drop_eq_getElem_cons hget, hbyte]
      split at h
      · cases h
      · split at h
        · cases h
        · obtain ⟨hhost, hu⟩ := inetHost_ok h
          rw [hhost, hu]
          simp only [Url.portPart, Bool.false_eq_true, if_false, portPart]
          rw [← htake, List.take_append_drop]
  next hport =>
      rw [if_neg (by simp)] at h
      obtain ⟨hhost, hu⟩ := inetHost_ok h
      rw [hhost, hu]
      simp only [Url.portPart, if_true, portPart]
      rw [List.append_nil, List.take_append_drop]

theorem inet6Host_ok {host : Bytes} {u u' : Url} (h : inet6Host host u = .ok u') :
    u'.host = host ∧ u'.portPart = u.portPart ∧ u'.uri = u.uri := by
  rw [inet6Host] at h
  split at h
  · cases h
  · split at h
    · cases h
    · cases h
      exact ⟨rfl, rfl, rfl⟩

theorem validPort_digits {text : Bytes} (h : validPort (atoi text) = true) : 47 ∉ text := by
  have hrange := of_decide_eq_true h
  obtain herror | ⟨k, hk, -, hatoi⟩ := atoi_cases text
  · omega
  · rw [hatoi] at hrange
    have hmod : k % 2 ^ 64 ≤ k := Nat.mod_le k _
    rw [numeral] at hk
    split at hk
    · cases hk
    · intro hmem
      have hsome := numeralFrom_decimal hk hmem
      have hslash : digitOf 10 47 = none := by decide
      rw [hslash] at hsome
      cases hsome

theorem strlchr_none {s : Bytes} {c : UInt8} (h : c ∉ s) : strlchr s c = none := by
  have happend := strlchr_append h []
  rwa [List.append_nil] at happend

-- Of a bracketed text, only a port or a uri right behind the bracket is kept.
theorem inet6Url_concat {behind : Nat → UInt8} {rest : Bytes} {u : Url} (h : parseInet6Url false true behind (91 :: rest) = .ok u) :
    ∃ tail, rest = u.host ++ 93 :: tail ∧ ((tail = [] → behind 0 ≠ 58) →
      (tail = [] ∨ tail.head? = some 58 ∨ tail.head? = some 47) → tail = u.portPart ++ u.uri) := by
  rw [parseInet6Url, List.tail_cons] at h
  split at h
  · cases h
  next p hp =>
      obtain ⟨t, ht, hlen, -⟩ := strlchr_some hp
      have hdrop : rest.drop (p + 1) = t := by
        conv_lhs => rw [ht]
        rw [← List.drop_drop, List.drop_left' hlen]
        rfl
      dsimp only at h
      rw [hdrop, if_neg (by simp)] at h
      split at h
      next hcolon =>
          cases t with
          | nil =>
              have hbyte : behind 0 = 58 := by simpa [memory] using hcolon
              have hhost : u.host = rest.take p := by
                generalize (if ([] : Bytes) = [] then memory behind 1 (2 ^ 64 - 1) else List.tail []) = text at h
                split at h
                · cases h
                · split at h
                  · cases h
                  · exact (inet6Host_ok h).1
              exact ⟨[], by rw [hhost]; exact ht, fun hbehind => absurd hbyte (hbehind rfl)⟩
          | cons c t =>
              obtain rfl : c = 58 := by simpa using hcolon
              rw [if_neg (List.cons_ne_nil _ _), List.tail_cons] at h
              split at h
              · cases h
              · split at h
                · cases h
                next hvalid =>
                    obtain ⟨hhost, hport, huri⟩ := inet6Host_ok h
                    have hslash := validPort_digits (by simpa using hvalid)
                    have hnone : strlchr (58 :: t) 47 = none := strlchr_none (by simp [hslash])
                    refine ⟨58 :: t, by rw [hhost]; exact ht, fun _ _ => ?_⟩
                    rw [hport, huri, hnone, Option.getD_none, List.drop_length, List.append_nil]
                    rfl
      next hcolon =>
          obtain ⟨hhost, hport, huri⟩ := inet6Host_ok h
          refine ⟨t, by rw [hhost]; exact ht, fun hbehind htail => ?_⟩
          rw [hport, huri]
          cases t with
          | nil => rfl
          | cons c t =>
              obtain hnil | hhead | hhead := htail
              · cases hnil
              · exact absurd hhead hcolon
              · obtain rfl : c = 47 := by simpa using hhead
                rw [strlchr_here]
                rfl

theorem unixUrl_concat {alloc : Bool} {behind : Nat → UInt8} {url : Bytes} {u : Url} (hlen : 5 ≤ url.length)
    (h : parseUnixDomainUrl alloc true behind url = .ok u) :
    ∃ sep, url = url.take 5 ++ u.host ++ sep ++ u.uri ∧ (sep = [] ∧ u.uri = [] ∨ sep = [58]) := by
  rw [parseUnixDomainUrl, if_neg (by omega)] at h
  dsimp only at h
  split at h
  next colon hcolon =>
      split at h
      · cases h
      · split at h
        · cases h
        · split at h
          · cases h
          · cases h
            obtain ⟨t, ht, hlen', -⟩ := strlchr_some hcolon
            refine ⟨[58], ?_, Or.inr rfl⟩
            have hback : (url.drop 5).drop (colon + 1) = t := by
              conv_lhs => rw [ht]
              rw [← List.drop_drop, List.drop_left' hlen']
              rfl
            conv_lhs => rw [← List.take_append_drop 5 url, ht]
            dsimp only
            rw [hback]
            simp
  next =>
      split at h
      · cases h
      · split at h
        · cases h
        · split at h
          · cases h
          · cases h
            refine ⟨[], ?_, Or.inl ⟨rfl, rfl⟩⟩
            simp

theorem bracket_not_unix (behind : Nat → UInt8) (rest : Bytes) : ¬IsUnix behind (91 :: rest) := by
  have hlit : ngxString "unix:" = 117 :: ngxString "nix:" := by decide +kernel
  have hne : tolower 91 ≠ tolower 117 := by decide
  have hdiff : some (((tolower 91).toNat : Int) - (tolower 117).toNat) ≠ some 0 := by decide
  rw [IsUnix, hlit, List.cons_append, strncasecmp, if_neg hne]
  exact hdiff

theorem parseUrl_bracket (alloc : Bool) (behind : Nat → UInt8) (rest : Bytes) :
    parseUrl alloc false true behind (91 :: rest) = parseInet6Url false true behind (91 :: rest) := by
  rw [parseUrl]
  rw [if_neg (bracket_not_unix behind rest), List.cons_append, List.head?_cons, if_neg (by decide), if_pos rfl]

theorem parseUrl_inet {alloc : Bool} {behind : Nat → UInt8} {host rest : Bytes} (hhost : HostText host)
    (hunix : ¬IsUnix behind (host ++ rest)) :
    parseUrl alloc false true behind (host ++ rest) = parseInetUrl false true (host ++ rest) := by
  have hbracket := hhost.no_bracket
  obtain ⟨hcolon, hslash, -⟩ := hhost.no_delimiter
  rw [parseUrl]
  rw [if_neg hunix]
  match host, hhost.ne_nil with
  | c :: host, _ =>
      have hc : c ≠ 58 ∧ c ≠ 47 ∧ c ≠ 91 := by
        refine ⟨?_, ?_, by simpa using hbracket⟩
        · rintro rfl
          exact hcolon List.mem_cons_self
        · rintro rfl
          exact hslash List.mem_cons_self
      simp [hc]

-- An accepted text that is no path and does not begin with a bracket
theorem parseUrl_concat {alloc : Bool} {behind : Nat → UInt8} {url : Bytes} {u : Url} (hunix : ¬IsUnix behind url)
    (hbracket : url.head? ≠ some 91) (h : parseUrl alloc false true behind url = .ok u) :
    url = (if u.host = [] then [42] else u.host) ++ u.portPart ++ u.uri := by
  rw [parseUrl] at h
  rw [if_neg hunix] at h
  split at h
  · cases h
  · split at h
    next hfirst =>
        cases url with
        | nil => cases h
        | cons c url => exact absurd hfirst hbracket
    next => exact inetUrl_concat h

theorem parseUrl_pieces (alloc : Bool) (behind : Nat → UInt8) :
    (∀ host port uri n, HostText host → PortText port n → UriText uri → ¬IsUnix behind (host ++ portPart port ++ uri) →
      parseUrl alloc false true behind (host ++ portPart port ++ uri) =
        .ok { host, portText := port.getD [], uri, port := n, noPort := port.isNone }) ∧
    (∀ host addr port uri n, inet6Addr host = some addr → PortText port n → UriText uri → port = none ∨ uri = [] →
      (port = none → uri = [] → behind 0 ≠ 58) →
      parseUrl alloc false true behind (91 :: (host ++ 93 :: (portPart port ++ uri))) =
        .ok { host, portText := port.getD [], uri, port := n, family := .inet6, noPort := port.isNone, sin6Addr := addr,
              wildcard := addr = List.replicate 16 0 }) ∧
    ∀ url u, parseUrl alloc false true behind url = .ok u →
      (IsUnix behind url → 5 ≤ url.length →
        ∃ sep, url = url.take 5 ++ u.host ++ sep ++ u.uri ∧ (sep = [] ∧ u.uri = [] ∨ sep = [58])) ∧
      (∀ rest, url = 91 :: rest → ∃ tail, rest = u.host ++ 93 :: tail ∧ ((tail = [] → behind 0 ≠ 58) →
        (tail = [] ∨ tail.head? = some 58 ∨ tail.head? = some 47) → tail = u.portPart ++ u.uri)) ∧
      (¬IsUnix behind url → url.head? ≠ some 91 → url = (if u.host = [] then [42] else u.host) ++ u.portPart ++ u.uri) := by
  refine ⟨fun host port uri n hhost hport huri hunix => ?_, fun host addr port uri n haddr hport huri hone hbehind => ?_,
    fun url u h => ⟨fun hunix hlen => ?_, ?_, fun hunix hbracket => parseUrl_concat hunix hbracket h⟩⟩
  · rw [List.append_assoc] at hunix
    rw [List.append_assoc, parseUrl_inet hhost hunix, ← List.append_assoc]
    exact inetUrl_pieces hhost hport huri
  · rw [parseUrl_bracket]
    exact inet6Url_pieces haddr hport huri hone hbehind
  · rw [parseUrl] at h
    rw [if_pos hunix] at h
    exact unixUrl_concat hlen h
  · rintro rest rfl
    rw [parseUrl_bracket] at h
    exact inet6Url_concat h

-- The host unix with a port is a path, and a host of one '*' is kept as an empty one.
theorem pieces_lost :
    (∃ u, parseUrl true false true (fun _ => 0) (ngxString "unix:80") = .ok u ∧ u.host ≠ ngxString "unix" ∧
      u.portText ≠ ngxString "80") ∧
    ∃ u, parseUrl true false true (fun _ => 0) (ngxString "*:80/x") = .ok u ∧
      u.host ++ u.portPart ++ u.uri ≠ ngxString "*:80/x" := by
  have hunix : (parseUrl true false true (fun _ => 0) (ngxString "unix:80")).toOption =
      some { host := ngxString "80", family := .unix, addrs := [(ngxString "80", ngxString "unix:80")] } := by decide
  have hstar : (parseUrl true false true (fun _ => 0) (ngxString "*:80/x")).toOption =
      some { portText := ngxString "80", uri := ngxString "/x", port := 80 } := by decide
  have hok : ∀ {r : Result} {u : Url}, r.toOption = some u → r = .ok u := by
    intro r u h
    cases r with
    | error => cases h
    | ok v => exact congrArg Except.ok (Option.some.inj h)
  exact ⟨⟨_, hok hunix, by decide, by decide +kernel⟩, _, hok hstar, by decide⟩

end Nginx.Inet
