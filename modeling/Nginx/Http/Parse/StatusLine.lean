import Nginx.Http.Parse.RequestLine
import Nginx.Library.Resumable

namespace Nginx.HttpParse

inductive StatusLineState where
  | start
  | httpH
  | httpHT
  | httpHTT
  | httpHTTP
  | firstMajorDigit
  | majorDigit
  | firstMinorDigit
  | minorDigit
  | status
  | spaceAfterStatus
  | statusText
  | almostDone
deriving DecidableEq

-- r->state and ngx_http_status_t; statusEnd is end.
structure Status where
  state : StatusLineState
  code : Nat
  count : Nat
  statusStart : Option Nat
  statusEnd : Option Nat
deriving DecidableEq

inductive StatusRc where
  | ok
  | again
  | error
deriving DecidableEq

inductive StatusStop where
  | done (r : Status)
  | fail (r : Status)

-- One expected character
def Status.expect (r : Status) (ch want : UInt8) (state : StatusLineState) : Resumable.Turn Status StatusStop :=
  if ch = want then .next { r with state := state } else .stop (.fail r)

-- switch (state) of ngx_http_parse_status_line, with ch = *p
def statusTurn (buf : Nat → UInt8) (p : Nat) (r : Status) : Resumable.Turn Status StatusStop :=
  let ch := buf p
  match r.state with
  | .start => r.expect ch 72 .httpH
  | .httpH => r.expect ch 84 .httpHT
  | .httpHT => r.expect ch 84 .httpHTT
  | .httpHTT => r.expect ch 80 .httpHTTP
  | .httpHTTP => r.expect ch 47 .firstMajorDigit
  | .firstMajorDigit => if ch < 49 ∨ 57 < ch then .stop (.fail r) else .next { r with state := .majorDigit }
  | .majorDigit =>
      if ch = 46 then .next { r with state := .firstMinorDigit }
      else if !isDigitChar ch then .stop (.fail r)
      else .next r
  | .firstMinorDigit => if !isDigitChar ch then .stop (.fail r) else .next { r with state := .minorDigit }
  | .minorDigit =>
      if ch = 32 then .next { r with state := .status }
      else if !isDigitChar ch then .stop (.fail r)
      else .next r
  | .status =>
      if ch = 32 then .next r
      else if !isDigitChar ch then .stop (.fail r)
      else
        let r := { r with code := toSize (r.code * 10 + ch.toNat - 48), count := toSize (r.count + 1) }
        if r.count = 3 then .next { r with state := .spaceAfterStatus, statusStart := some (p - 2) } else .next r
  | .spaceAfterStatus =>
      if ch = 32 ∨ ch = 46 then .next { r with state := .statusText }
      else if ch = 13 then .next { r with state := .almostDone }
      else if ch = 10 then .stop (.done r)
      else .stop (.fail r)
  | .statusText =>
      if ch = 13 then .next { r with state := .almostDone }
      else if ch = 10 then .stop (.done r)
      else .next r
  | .almostDone =>
      let r := { r with statusEnd := some (p - 1) }
      if ch = 10 then .stop (.done r) else .stop (.fail r)

def statusAnswer (pos : Nat) (found : Status) (p : Nat) : StatusStop → StatusRc × Nat × Status
  | .done r => (.ok, p + 1, { r with statusEnd := some (r.statusEnd.getD p), state := .start })
  | .fail r => (.error, pos, { r with state := found.state })

-- ngx_http_parse_status_line on a buffer with the bytes from pos to last
def parseStatusLine (buf : Nat → UInt8) (pos last : Nat) (r : Status) : StatusRc × Nat × Status :=
  Resumable.call statusTurn statusAnswer .again buf pos last r

end Nginx.HttpParse
