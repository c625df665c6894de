import Nginx.Http.Parse

namespace Nginx.HttpParse

inductive LineState where
  | start
  | method
  | spacesBeforeUri
  | schema
  | schemaSlash
  | schemaSlashSlash
  | host
  | port
  | hostHttp09
  | afterSlashInUri
  | checkUri
  | checkUriHttp09
  | uri
  | http09
  | httpH
  | httpHT
  | httpHTT
  | httpHTTP
  | firstMajorDigit
  | majorDigit
  | firstMinorDigit
  | minorDigit
  | spacesAfterDigit
  | almostDone
deriving DecidableEq

inductive Method where
  | unknown
  | get
  | put
  | post
  | copy
  | move
  | lock
  | head
  | mkcol
  | patch
  | trace
  | delete
  | unlock
  | options
  | propfind
  | proppatch
deriving DecidableEq

-- The pointers into the buffer are positions, and none is NULL.
structure Request where
  state : LineState
  requestStart : Option Nat
  requestEnd : Option Nat
  methodEnd : Option Nat
  schemaStart : Option Nat
  schemaEnd : Option Nat
  hostStart : Option Nat
  hostEnd : Option Nat
  portEnd : Option Nat
  uriStart : Option Nat
  uriEnd : Option Nat
  uriExt : Option Nat
  argsStart : Option Nat
  httpProtocol : Option Nat
  method : Method
  httpMajor : Nat
  httpMinor : Nat
  httpVersion : Nat
  complexUri : Bool
  quotedUri : Bool
  plusInUri : Bool
  spaceInUri : Bool

inductive LineError where
  | invalidMethod
  | invalidRequest
  | invalid09Method
deriving DecidableEq

inductive LineRc where
  | ok
  | again
  | error (rc : LineError)
deriving DecidableEq

inductive LineTurn where
  | next (r : Request)
  | done (r : Request)
  | fail (rc : LineError) (r : Request)

def methods : List (Bytes × Method) :=
  [(ngxString "GET", .get), (ngxString "PUT", .put), (ngxString "POST", .post), (ngxString "COPY", .copy),
    (ngxString "MOVE", .move), (ngxString "LOCK", .lock), (ngxString "HEAD", .head), (ngxString "MKCOL", .mkcol),
    (ngxString "PATCH", .patch), (ngxString "TRACE", .trace), (ngxString "DELETE", .delete),
    (ngxString "UNLOCK", .unlock), (ngxString "OPTIONS", .options), (ngxString "PROPFIND", .propfind),
    (ngxString "PROPPATCH", .proppatch)]

-- The bytes of the buffer from one position up to another.
def slice (buf : Nat → UInt8) (first last : Nat) : Bytes := (List.range (last - first)).map fun i => buf (first + i)

-- (ch | 0x20) is a letter
def isAlpha (ch : UInt8) : Bool := 97 ≤ ch ||| 0x20 && ch ||| 0x20 ≤ 122

def isDigitChar (ch : UInt8) : Bool := 48 ≤ ch && ch ≤ 57

def isMethodChar (ch : UInt8) : Bool := (65 ≤ ch && ch ≤ 90) || ch = 95

-- r->http_minor = 9, with the state that follows
def Request.http09 (r : Request) (state : LineState) : Request := { r with httpMinor := 9, state := state }

-- The cases ' ', CR, LF and 'H' of the three states for spaces after a URI.
def readSpaces (r : Request) (p : Nat) (ch : UInt8) (other : LineTurn) : LineTurn :=
  if ch = 32 then .next r
  else if ch = 13 then .next (r.http09 .almostDone)
  else if ch = 10 then .done (r.http09 r.state)
  else if ch = 72 then .next { r with httpProtocol := some p, state := .httpH }
  else other

-- The cases ' ', CR and LF of the three states inside of a URI.
def readUriEnd (r : Request) (p : Nat) (ch : UInt8) (spaces : LineState) (other : LineTurn) : LineTurn :=
  if ch = 32 then .next { r with uriEnd := some p, state := spaces }
  else if ch = 13 then .next ({ r with uriEnd := some p }.http09 .almostDone)
  else if ch = 10 then .done ({ r with uriEnd := some p }.http09 r.state)
  else other

-- One expected character.
def expect (r : Request) (ch want : UInt8) (state : LineState) : LineTurn :=
  if ch = want then .next { r with state := state } else .fail .invalidRequest r

-- r->uri_start = r->schema_end + 1; r->uri_end = r->schema_end + 2;
def Request.singleSlash (r : Request) : Request :=
  { r with uriStart := r.schemaEnd.map (· + 1), uriEnd := r.schemaEnd.map (· + 2), state := .hostHttp09 }

-- switch (state) of ngx_http_parse_request_line, with ch = *p
def lineTurn (buf : Nat → UInt8) (r : Request) (p : Nat) : LineTurn :=
  let ch := buf p
  match r.state with
  | .start =>
      let r := { r with requestStart := some p }
      if ch = 13 ∨ ch = 10 then .next r
      else if !isMethodChar ch then .fail .invalidMethod r
      else .next { r with state := .method }
  | .method =>
      if ch = 32 then
        let m := slice buf (r.requestStart.getD 0) p
        .next { r with
          methodEnd := some (p - 1), method := ((methods.lookup m).getD r.method), state := .spacesBeforeUri }
      else if !isMethodChar ch then .fail .invalidMethod r
      else .next r
  | .spacesBeforeUri =>
      if ch = 47 then .next { r with uriStart := some p, state := .afterSlashInUri }
      else if isAlpha ch then .next { r with schemaStart := some p, state := .schema }
      else if ch = 32 then .next r
      else .fail .invalidRequest r
  | .schema =>
      if isAlpha ch then .next r
      else if ch = 58 then .next { r with schemaEnd := some p, state := .schemaSlash }
      else .fail .invalidRequest r
  | .schemaSlash => expect r ch 47 .schemaSlashSlash
  | .schemaSlashSlash =>
      if ch = 47 then .next { r with hostStart := some (p + 1), state := .host } else .fail .invalidRequest r
  | .host =>
      if isAlpha ch then .next r
      else if isDigitChar ch || ch = 46 || ch = 45 then .next r
      else
        let r := { r with hostEnd := some p }
        if ch = 58 then .next { r with state := .port }
        else if ch = 47 then .next { r with uriStart := some p, state := .afterSlashInUri }
        else if ch = 32 then .next r.singleSlash
        else .fail .invalidRequest r
  | .port =>
      if isDigitChar ch then .next r
      else if ch = 47 then .next { r with portEnd := some p, uriStart := some p, state := .afterSlashInUri }
      else if ch = 32 then .next { r with portEnd := some p }.singleSlash
      else .fail .invalidRequest r
  | .hostHttp09 => readSpaces r p ch (.fail .invalidRequest r)
  | .afterSlashInUri =>
      if isUsual ch then .next { r with state := .checkUri }
      else
        readUriEnd r p ch .checkUriHttp09 <|
          if ch = 46 then .next { r with complexUri := true, state := .uri }
          else if ch = 37 then .next { r with quotedUri := true, state := .uri }
          else if ch = 47 then .next { r with complexUri := true, state := .uri }
          else if ch = 63 then .next { r with argsStart := some (p + 1), state := .uri }
          else if ch = 35 then .next { r with complexUri := true, state := .uri }
          else if ch = 43 then .next { r with plusInUri := true }
          else if ch = 0 then .fail .invalidRequest r
          else .next { r with state := .checkUri }
  | .checkUri =>
      if isUsual ch then .next r
      else
        readUriEnd r p ch .checkUriHttp09 <|
          if ch = 47 then .next { r with uriExt := none, state := .afterSlashInUri }
          else if ch = 46 then .next { r with uriExt := some (p + 1) }
          else if ch = 37 then .next { r with quotedUri := true, state := .uri }
          else if ch = 63 then .next { r with argsStart := some (p + 1), state := .uri }
          else if ch = 35 then .next { r with complexUri := true, state := .uri }
          else if ch = 43 then .next { r with plusInUri := true }
          else if ch = 0 then .fail .invalidRequest r
          else .next r
  | .checkUriHttp09 => readSpaces r p ch (.next { r with spaceInUri := true, state := .checkUri })
  | .uri =>
      if isUsual ch then .next r
      else
        readUriEnd r p ch .http09 <|
          if ch = 35 then .next { r with complexUri := true }
          else if ch = 0 then .fail .invalidRequest r
          else .next r
  | .http09 => readSpaces r p ch (.next { r with spaceInUri := true, state := .uri })
  | .httpH => expect r ch 84 .httpHT
  | .httpHT => expect r ch 84 .httpHTT
  | .httpHTT => expect r ch 80 .httpHTTP
  | .httpHTTP => expect r ch 47 .firstMajorDigit
  | .firstMajorDigit =>
      if ch < 49 ∨ 57 < ch then .fail .invalidRequest r
      else .next { r with httpMajor := ch.toNat - 48, state := .majorDigit }
  | .majorDigit =>
      if ch = 46 then .next { r with state := .firstMinorDigit }
      else if !isDigitChar ch then .fail .invalidRequest r
      else .next { r with httpMajor := toSize (r.httpMajor * 10 + ch.toNat - 48) }
  | .firstMinorDigit =>
      if !isDigitChar ch then .fail .invalidRequest r
      else .next { r with httpMinor := ch.toNat - 48, state := .minorDigit }
  | .minorDigit =>
      if ch = 13 then .next { r with state := .almostDone }
      else if ch = 10 then .done r
      else if ch = 32 then .next { r with state := .spacesAfterDigit }
      else if !isDigitChar ch then .fail .invalidRequest r
      else .next { r with httpMinor := toSize (r.httpMinor * 10 + ch.toNat - 48) }
  | .spacesAfterDigit =>
      if ch = 32 then .next r
      else if ch = 13 then .next { r with state := .almostDone }
      else if ch = 10 then .done r
      else .fail .invalidRequest r
  | .almostDone =>
      let r := { r with requestEnd := some (p - 1) }
      if ch = 10 then .done r else .fail .invalidRequest r

-- From done on.
def lineDone (r : Request) (p : Nat) : LineRc × Request :=
  let r := { r with
    requestEnd := some (r.requestEnd.getD p)
    httpVersion := toSize (r.httpMajor * 1000 + r.httpMinor)
    state := .start }
  (if r.httpVersion = 9 ∧ r.method ≠ .get then .error .invalid09Method else .ok, r)

-- The loop over the n bytes from p on, with the result, b->pos and the request. A return from inside of it leaves b->pos
-- and r->state as the call has found them.
def lineLoop (buf : Nat → UInt8) (pos : Nat) (state : LineState) : Nat → Nat → Request → LineRc × Nat × Request
  | 0, p, r => (.again, p, r)
  | n + 1, p, r =>
      match lineTurn buf r p with
      | .next r => lineLoop buf pos state n (p + 1) r
      | .done r =>
          let (rc, r) := lineDone r p
          (rc, p + 1, r)
      | .fail rc r => (.error rc, pos, { r with state := state })

-- ngx_http_parse_request_line on a buffer with the bytes from pos to last
def parseRequestLine (buf : Nat → UInt8) (pos last : Nat) (r : Request) : LineRc × Nat × Request :=
  lineLoop buf pos r.state (last - pos) pos r

-- Calls for more and more of the stream, up to the first result that is not NGX_AGAIN.
def feed (buf : Nat → UInt8) : List Nat → Nat → Request → LineRc × Request
  | [], _, r => (.again, r)
  | last :: lasts, pos, r =>
      match parseRequestLine buf pos last r with
      | (.again, pos, r) => feed buf lasts pos r
      | (rc, _, r) => (rc, r)

-- A request as it is allocated.
def newRequest : Request where
  state := .start
  requestStart := none
  requestEnd := none
  methodEnd := none
  schemaStart := none
  schemaEnd := none
  hostStart := none
  hostEnd := none
  portEnd := none
  uriStart := none
  uriEnd := none
  uriExt := none
  argsStart := none
  httpProtocol := none
  method := .unknown
  httpMajor := 0
  httpMinor := 0
  httpVersion := 0
  complexUri := false
  quotedUri := false
  plusInUri := false
  spaceInUri := false

section Slices

variable {buf : Nat → UInt8} {first middle last p : Nat}

theorem slice_length (buf : Nat → UInt8) (first last : Nat) : (slice buf first last).length = last - first := by
  rw [slice, List.length_map, List.length_range]

theorem slice_self (buf : Nat → UInt8) (p : Nat) : slice buf p p = [] := by
  rw [slice, Nat.sub_self]
  rfl

theorem slice_append (h : first ≤ middle) (h' : middle ≤ last) :
    slice buf first last = slice buf first middle ++ slice buf middle last := by
  have hsize : last - first = (middle - first) + (last - middle) := by omega
  rw [slice, slice, slice, hsize, List.range_add, List.map_append, List.map_map]
  congr 1
  apply List.map_congr_left
  intro i _
  rw [Function.comp_apply]
  congr 1
  omega

theorem slice_succ (h : first ≤ p) : slice buf first (p + 1) = slice buf first p ++ [buf p] := by
  rw [slice_append h (Nat.le_succ p)]
  have hone : p + 1 - p = 1 := by omega
  congr 1
  rw [slice, hone]
  rfl

-- The part of a slice between two others
theorem slice_part {front part back : Bytes} (h : slice buf first last = front ++ (part ++ back)) :
    slice buf (first + front.length) (first + front.length + part.length) = part := by
  have hsize := congrArg List.length h
  simp only [slice_length, List.length_append] at hsize
  have hfront : first ≤ first + front.length := Nat.le_add_right _ _
  have hpart : first + front.length ≤ first + front.length + part.length := Nat.le_add_right _ _
  have hback : first + front.length + part.length ≤ last ∨ part = [] := by
    cases part with
    | nil => exact .inr rfl
    | cons c part =>
        rw [List.length_cons] at hsize ⊢
        exact .inl (by omega)
  obtain hback | rfl := hback
  · rw [slice_append hfront (Nat.le_trans hpart hback), slice_append hpart hback] at h
    have hrest := (List.append_inj h (by rw [slice_length]; omega)).2
    exact (List.append_inj hrest (by rw [slice_length]; omega)).1
  · rw [List.length_nil, Nat.add_zero, slice_self]

theorem slice_cons (h : first < last) : slice buf first last = buf first :: slice buf (first + 1) last := by
  rw [slice_append (Nat.le_succ first) h, slice_succ (Nat.le_refl first), slice_self]
  rfl

theorem slice_getElem? (buf : Nat → UInt8) (first last i : Nat) :
    (slice buf first last)[i]? = if i < last - first then some (buf (first + i)) else none := by
  unfold slice
  rw [List.getElem?_map]
  split
  · rename_i h
    rw [List.getElem?_range h]
    rfl
  · rename_i h
    rw [List.getElem?_eq_none (by simpa using h)]
    rfl

theorem slice_step (len p : Nat) : slice buf p (p + (len + 1)) = buf p :: slice buf (p + 1) (p + 1 + len) := by
  rw [slice_cons (by omega), Nat.add_right_comm, Nat.add_assoc p len 1]

theorem prefix_slice_iff {l : Bytes} {len : Nat} :
    l <+: slice buf p (p + len) ↔ l.length ≤ len ∧ slice buf p (p + l.length) = l := by
  constructor
  · intro h
    have hle : l.length ≤ len := by
      have := h.length_le
      rwa [slice_length, Nat.add_sub_cancel_left] at this
    obtain ⟨back, hback⟩ := h
    have hslice : slice buf p (p + len) = [] ++ (l ++ back) := hback.symm
    exact ⟨hle, slice_part hslice⟩
  · rintro ⟨hle, heq⟩
    rw [slice_append (Nat.le_add_right p l.length) (Nat.add_le_add_left hle p), heq]
    exact List.prefix_append _ _

end Slices

end Nginx.HttpParse
