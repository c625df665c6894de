import Nginx.Core.Bytes

namespace Nginx.HttpParse

-- usual[], without NGX_WIN32
def usual : List Nat :=
  [0xffffdbfe, 0x7fff37d6, 0xffffffff, 0xffffffff, 0xffffffff, 0xffffffff, 0xffffffff, 0xffffffff]

-- usual[ch >> 5] & (1 << (ch & 0x1f))
def isUsual (ch : UInt8) : Bool := (usual.getD (ch.toNat / 32) 0).testBit (ch.toNat % 32)

-- The states in which ngx_http_parse_complex_uri reads characters of the path.
inductive Place where
  | usual
  | slash
  | dot
  | dotDot
deriving DecidableEq

-- The states, with quoted_state and decoded where they are in use.
inductive State where
  | plain (place : Place)
  | quoted (saved : Place)
  | quotedSecond (saved : Place) (decoded : UInt8)
deriving DecidableEq

-- The output is kept with its last byte first; uri_ext is an index into it.
structure Uri where
  state : State
  out : Bytes
  uriExt : Option Nat
  plusInUri : Bool
  quotedUri : Bool

def Uri.push (r : Uri) (ch : UInt8) : Uri := { r with out := ch :: r.out }

def Uri.goto (r : Uri) (place : Place) : Uri := { r with state := .plain place }

-- What one turn of the loop comes to.
inductive Turn where
  | next (r : Uri)
  | args (r : Uri)
  | done (r : Uri)
  | invalid

-- for ( ;; ) after u -= 5, on the bytes from u downwards
def rewind : Bytes → Option Bytes
  | [] => none
  | c :: out => if c = 47 then some (c :: out) else rewind out

variable (mergeSlashes : Bool)

-- The cases that sw_usual, sw_slash, sw_dot and sw_dot_dot share.
def readOther (r : Uri) (place : Place) (ch : UInt8) : Turn :=
  if ch = 37 then .next { r with state := .quoted place }
  else if ch = 63 then .args r
  else if ch = 35 then .done r
  else if ch = 43 then .next ({ r with plusInUri := true }.push ch |>.goto .usual)
  else .next (r.push ch |>.goto .usual)

def readPlain (r : Uri) (place : Place) (ch : UInt8) : Turn :=
  if isUsual ch then .next (r.push ch |>.goto .usual)
  else
    match place with
    | .usual =>
        if ch = 47 then .next ({ r with uriExt := none }.push ch |>.goto .slash)
        else if ch = 46 then .next ({ r with uriExt := some (r.out.length + 1) }.push ch |>.goto .usual)
        else readOther r .usual ch
    | .slash =>
        if ch = 47 then .next (if mergeSlashes then r.goto .slash else r.push ch |>.goto .slash)
        else if ch = 46 then .next (r.push ch |>.goto .dot)
        else readOther r .slash ch
    | .dot =>
        if ch = 47 then .next ({ r with out := r.out.tail }.goto .slash)
        else if ch = 46 then .next (r.push ch |>.goto .dotDot)
        else readOther r .dot ch
    | .dotDot =>
        if ch = 47 then
          match rewind (r.out.drop 4) with
          | none => .invalid
          | some out => .next ({ r with out := out }.goto .slash)
        else readOther r .dotDot ch

-- switch (state); a second hexadecimal digit is followed by the turn that reads the decoded character.
def turn (r : Uri) (ch : UInt8) : Turn :=
  match r.state with
  | .plain place => readPlain mergeSlashes r place ch
  | .quoted saved =>
      let r := { r with quotedUri := true }
      let c := ch ||| 0x20
      if 48 ≤ ch ∧ ch ≤ 57 then .next { r with state := .quotedSecond saved (ch - 48) }
      else if 97 ≤ c ∧ c ≤ 102 then .next { r with state := .quotedSecond saved (c - 97 + 10) }
      else .invalid
  | .quotedSecond saved decoded =>
      let c := ch ||| 0x20
      if 48 ≤ ch ∧ ch ≤ 57 then
        let ch := (decoded <<< 4) + ch - 48
        if ch = 37 ∨ ch = 35 then .next (r.push ch |>.goto .usual)
        else if ch = 0 then .invalid
        else readPlain mergeSlashes r saved ch
      else if 97 ≤ c ∧ c ≤ 102 then
        let ch := (decoded <<< 4) + c - 97 + 10
        if ch = 63 then .next (r.push ch |>.goto .usual)
        else readPlain mergeSlashes (if ch = 43 then { r with plusInUri := true } else r) saved ch
      else .invalid

-- What the request has when NGX_OK is returned.
structure Parsed where
  uri : Bytes
  exten : Option Bytes
  -- the bytes from args_start to uri_end
  argsStart : Option Bytes
  args : Option Bytes
  plusInUri : Bool
  quotedUri : Bool
deriving DecidableEq

def finish (r : Uri) (argsStart args : Option Bytes) : Parsed where
  uri := r.out.reverse
  exten := r.uriExt.map fun i => r.out.reverse.drop i
  argsStart := argsStart
  args := args
  plusInUri := r.plusInUri
  quotedUri := r.quotedUri

-- The loop at args.
def finishArgs (r : Uri) (rest : Bytes) : Parsed :=
  if 35 ∈ rest then finish r none (some (rest.takeWhile (· ≠ 35))) else finish r (some rest) none

-- none is NGX_HTTP_PARSE_INVALID_REQUEST.
def complexLoop (r : Uri) : Bytes → Option Parsed
  | [] => some (finish r none none)
  | ch :: rest =>
      match turn mergeSlashes r ch with
      | .next r => complexLoop r rest
      | .args r => some (finishArgs r rest)
      | .done r => some (finish r none none)
      | .invalid => none

-- ngx_http_parse_complex_uri on the bytes from uri_start to uri_end and the flags of the request
def parseComplexUri (uri : Bytes) (plusInUri quotedUri : Bool) : Option Parsed :=
  complexLoop mergeSlashes ⟨.plain .usual, [], none, plusInUri, quotedUri⟩ uri

end Nginx.HttpParse
