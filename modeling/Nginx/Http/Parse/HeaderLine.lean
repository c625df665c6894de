import Nginx.Core.Hash
import Nginx.Http.Parse.RequestLine
import Nginx.Library.Resumable

namespace Nginx.HttpParse

inductive HeaderLineState where
  | start
  | name
  | spaceBeforeValue
  | value
  | spaceAfterValue
  | ignoreLine
  | almostDone
  | headerAlmostDone
deriving DecidableEq

-- Of r: the state, what is kept of a name that is not at its end, the pointers, and whether r->upstream is set.
-- In the loop, state, headerHash and lowcaseIndex are the local variables state, hash and i.
structure HeaderRequest where
  state : HeaderLineState
  headerHash : Nat
  lowcaseIndex : Nat
  lowcaseHeader : Bytes
  invalidHeader : Bool
  headerNameStart : Option Nat
  headerNameEnd : Option Nat
  headerStart : Option Nat
  headerEnd : Option Nat
  upstream : Bool
deriving DecidableEq

inductive HeaderRc where
  | ok
  | again
  | headerDone
  | invalidHeader
deriving DecidableEq

-- The labels done and header_done, and the returns from inside of the loop
inductive HeaderStop where
  | done (r : HeaderRequest)
  | headerDone (r : HeaderRequest)
  | fail (r : HeaderRequest)

-- static u_char lowcase[]
def lowcase (ch : UInt8) : UInt8 :=
  if 65 ≤ ch ∧ ch ≤ 90 then ch ||| 0x20
  else if 97 ≤ ch ∧ ch ≤ 122 ∨ 48 ≤ ch ∧ ch ≤ 57 ∨ ch = 45 then ch
  else 0

-- NGX_HTTP_LC_HEADER_LEN
def lcHeaderLen : Nat := 32

def HeaderRequest.addName (r : HeaderRequest) (c : UInt8) : HeaderRequest :=
  { r with
    headerHash := Hash.hash r.headerHash c
    lowcaseHeader := r.lowcaseHeader.set r.lowcaseIndex c
    lowcaseIndex := (r.lowcaseIndex + 1) &&& (lcHeaderLen - 1) }

-- r->header_start = p; r->header_end = p;
def HeaderRequest.noValue (r : HeaderRequest) (p : Nat) : HeaderRequest :=
  { r with headerStart := some p, headerEnd := some p }

-- "IIS may send the duplicate HTTP/1.1 ... lines"
def isStatusLine (buf : Nat → UInt8) (r : HeaderRequest) (p : Nat) : Bool :=
  r.upstream && p - r.headerNameStart.getD 0 = 4 && slice buf (r.headerNameStart.getD 0) p = ngxString "HTTP"

-- switch (state) of ngx_http_parse_header_line, with ch = *p
def headerTurn (allowUnderscores : Bool) (buf : Nat → UInt8) (p : Nat) (r : HeaderRequest) :
    Resumable.Turn HeaderRequest HeaderStop :=
  let ch := buf p
  match r.state with
  | .start =>
      let r := { r with headerNameStart := some p, invalidHeader := false }
      if ch = 13 then .next { r with headerEnd := some p, state := .headerAlmostDone }
      else if ch = 10 then .stop (.headerDone { r with headerEnd := some p })
      else
        let r := { r with state := .name }
        let c := lowcase ch
        if c ≠ 0 then
          .next { r with headerHash := Hash.hash 0 c, lowcaseHeader := r.lowcaseHeader.set 0 c, lowcaseIndex := 1 }
        else if ch = 0 then .stop (.fail r)
        else .next { r with invalidHeader := true }
  | .name =>
      let c := lowcase ch
      if c ≠ 0 then .next (r.addName c)
      else if ch = 95 then
        if allowUnderscores then .next (r.addName ch) else .next { r with invalidHeader := true }
      else if ch = 58 then .next { r with headerNameEnd := some p, state := .spaceBeforeValue }
      else if ch = 13 then .next { ({ r with headerNameEnd := some p }.noValue p) with state := .almostDone }
      else if ch = 10 then .stop (.done ({ r with headerNameEnd := some p }.noValue p))
      else if ch = 47 && isStatusLine buf r p then .next { r with state := .ignoreLine }
      else if ch = 0 then .stop (.fail r)
      else .next { r with invalidHeader := true }
  | .spaceBeforeValue =>
      if ch = 32 then .next r
      else if ch = 13 then .next { r.noValue p with state := .almostDone }
      else if ch = 10 then .stop (.done (r.noValue p))
      else if ch = 0 then .stop (.fail r)
      else .next { r with headerStart := some p, state := .value }
  | .value =>
      if ch = 32 then .next { r with headerEnd := some p, state := .spaceAfterValue }
      else if ch = 13 then .next { r with headerEnd := some p, state := .almostDone }
      else if ch = 10 then .stop (.done { r with headerEnd := some p })
      else if ch = 0 then .stop (.fail r)
      else .next r
  | .spaceAfterValue =>
      if ch = 32 then .next r
      else if ch = 13 then .next { r with state := .almostDone }
      else if ch = 10 then .stop (.done r)
      else if ch = 0 then .stop (.fail r)
      else .next { r with state := .value }
  | .ignoreLine => if ch = 10 then .next { r with state := .start } else .next r
  | .almostDone =>
      if ch = 10 then .stop (.done r)
      else if ch = 13 then .next r
      else .stop (.fail r)
  | .headerAlmostDone => if ch = 10 then .stop (.headerDone r) else .stop (.fail r)

-- A return from inside of the loop stores nothing of the local variables, and header_done only the state.
def headerAnswer (pos : Nat) (found : HeaderRequest) (p : Nat) : HeaderStop → HeaderRc × Nat × HeaderRequest
  | .done r => (.ok, p + 1, { r with state := .start })
  | .headerDone r =>
      (.headerDone, p + 1,
        { r with state := .start, headerHash := found.headerHash, lowcaseIndex := found.lowcaseIndex })
  | .fail r =>
      (.invalidHeader, pos,
        { r with state := found.state, headerHash := found.headerHash, lowcaseIndex := found.lowcaseIndex })

-- ngx_http_parse_header_line on a buffer with the bytes from pos to last
def parseHeaderLine (allowUnderscores : Bool) (buf : Nat → UInt8) (pos last : Nat) (r : HeaderRequest) :
    HeaderRc × Nat × HeaderRequest :=
  Resumable.call (headerTurn allowUnderscores) headerAnswer .again buf pos last r

end Nginx.HttpParse
