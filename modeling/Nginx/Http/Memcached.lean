import Nginx.Core.Escape
import Nginx.Core.Memcmp

namespace Nginx.Memcached

-- ngx_http_memcached_end with its NUL, and NGX_HTTP_MEMCACHED_END
def memcachedEnd : Bytes := ngxString "\r\nEND\r\n" ++ [0]

def memcachedEndLen : Nat := 7

-- ngx_http_memcached_create_request: the request, and ctx->key
def createRequest (vv : Bytes) : Bytes × Bytes :=
  let key := if escapeCount .memcached vv = 0 then vv else escapeUri .memcached vv
  (ngxString "get " ++ key ++ ngxString "\r\n", key)

def key (vv : Bytes) : Bytes := (createRequest vv).2

-- strncmp: whether the bytes are the same, and how many of them it has looked at; none is a read behind one of the two.
def strncmp : Bytes → Bytes → Nat → Option (Bool × Nat)
  | _, _, 0 => some (true, 0)
  | c :: s, d :: t, n + 1 =>
      if c ≠ d then some (false, 1)
      else if c = 0 then some (true, 1)
      else (strncmp s t n).map fun (same, seen) => (same, seen + 1)
  | _, _, _ => none

-- The loop of ngx_atoof; none is NGX_ERROR. No number reaches the end of the text, which is a NUL.
def atoofLoop : Int → Bytes → Nat → Option Int
  | value, _, 0 => some value
  | value, c :: line, n + 1 =>
      if c < 48 ∨ 57 < c then none else atoofLoop (toInt64 (value * 10 + (c.toNat - 48))) line n
  | _, [], _ + 1 => none

-- ngx_atoof
def atoof (line : Bytes) (n : Nat) : Int :=
  if n = 0 then -1
  else
    match atoofLoop 0 line n with
    | none => -1
    | some value => if value < 0 then -1 else value

-- while (*p) { if (*p++ == ' ') { goto length; } }
def skipFlags : Bytes → Option Bytes
  | [] => none
  | c :: p => if c = 0 then none else if c = 32 then some p else skipFlags p

-- while (*p && *p++ != CR): how far p goes
def skipLength : Bytes → Nat
  | [] => 0
  | c :: p => if c = 0 then 0 else if c = 13 then 1 else skipLength p + 1

inductive Header where
  | again
  | invalid
  | notFound
  -- NGX_OK with the status 200, r->headers_out.content_length_n, and what is in the buffer from u->buffer.pos on
  | found (contentLengthN : Int) (body : Bytes)
deriving DecidableEq

-- From the label length on
def processLength (text : Bytes) : Header :=
  let p := skipLength text
  -- p - len - 1 is a size_t
  let contentLengthN := atoof text (if p = 0 then 2 ^ 64 - 1 else p - 1)
  if contentLengthN = -1 then .invalid else .found contentLengthN (text.drop (p + 1))

-- The text of the buffer, with a NUL for the first LF
def processText (key text : Bytes) : Header :=
  if (strncmp text (ngxString "VALUE ") 6).map Prod.fst = some true then
    let p := text.drop 6
    if (strncmp p key key.length).map Prod.fst ≠ some true then .invalid
    else
      let p := p.drop key.length
      if p.head? ≠ some 32 then .invalid
      else
        match skipFlags p.tail with
        | none => .invalid
        | some p => processLength p
  else if strcmp text (ngxString "END\r") = 0 then .notFound
  else .invalid

-- ngx_http_memcached_process_header
def processHeader (key buffer : Bytes) : Header :=
  if 10 ∈ buffer then
    let line := buffer.takeWhile (· ≠ 10)
    processText key (line ++ 0 :: buffer.drop (line.length + 1))
  else .again

-- The loop of ngx_http_upstream_process_header: what the first call gives that does not ask for more, and the reads
-- that are left
def receive (key : Bytes) : Bytes → List Bytes → Option (Header × List Bytes)
  | _, [] => none
  | buffer, read :: reads =>
      match processHeader key (buffer ++ read) with
      | .again => receive key (buffer ++ read) reads
      | header => some (header, reads)

-- u->length and ctx->rest, and what stands in the bufs that were appended to u->out_bufs
structure State where
  length : Nat
  rest : Nat
  out : Bytes
deriving DecidableEq

-- What a call does: how far into ngx_http_memcached_end it looks, and whether a subtraction goes below zero
structure Effect where
  state : State
  seen : Nat
  wrapped : Bool
deriving DecidableEq

-- ngx_http_upstream_process_headers and ngx_http_memcached_filter_init
def filterInit (contentLengthN : Int) : State :=
  ⟨toSize (toSize contentLengthN + memcachedEndLen), memcachedEndLen, []⟩

-- ngx_http_memcached_filter on the bytes of a read; none is a read outside of ngx_http_memcached_end.
def filter (s : State) (data : Bytes) : Option Effect :=
  if s.length = s.rest then
    if memcachedEndLen < s.rest then none
    else
      (strncmp data (memcachedEnd.drop (memcachedEndLen - s.rest)) data.length).map fun (same, seen) =>
        if !same then ⟨{ s with length := 0, rest := 0 }, memcachedEndLen - s.rest + seen, false⟩
        else
          ⟨{ s with length := toSize (s.length - data.length), rest := toSize (s.rest - data.length) },
            memcachedEndLen - s.rest + seen, decide (s.rest < data.length)⟩
  else
    let value := toSize (s.length - memcachedEndLen)
    if (data.length : Int) ≤ toInt64 value then
      some ⟨{ s with length := toSize (s.length - data.length), out := s.out ++ data }, 0,
        decide (s.length < data.length)⟩
    else
      let trailer := data.drop value
      (strncmp trailer memcachedEnd trailer.length).map fun (_, seen) =>
        let rest := toSize (s.rest - trailer.length)
        ⟨⟨rest, rest, s.out ++ data.take value⟩, seen, decide (s.rest < trailer.length)⟩

end Nginx.Memcached
