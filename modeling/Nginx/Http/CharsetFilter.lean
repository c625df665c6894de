import Nginx.Core.Printf

namespace Nginx.CharsetFilter

-- The values of ngx_utf8_decode that are not characters
def incomplete : Nat := 0xfffffffe

def invalid : Nat := 0xffffffff

-- The loop of ngx_utf8_decode over len bytes; k is how far *p has gone. none is a read behind the bytes.
def utf8Continue (valid : Nat) : Nat → Nat → Nat → Bytes → Option (Nat × Nat)
  | 0, u, k, _ => some (if valid < u then u else invalid, k)
  | len + 1, u, k, i :: p =>
      if i < 0x80 then some (invalid, k + 1) else utf8Continue valid len (u * 64 + i.toNat % 64) (k + 1) p
  | _ + 1, _, _, [] => none

-- How many bytes are to come behind the first one
def need (c : UInt8) : Nat := if c ≥ 0xf0 then 3 else if c ≥ 0xe0 then 2 else if c ≥ 0xc2 then 1 else 0

-- ngx_utf8_decode: the value, and how far it moves *p
def utf8Decode (p : Bytes) (n : Nat) : Option (Nat × Nat) :=
  match p with
  | [] => none
  | c :: rest =>
      let long (u valid len : Nat) : Option (Nat × Nat) :=
        -- n - 1 is a size_t
        if n ≠ 0 ∧ n - 1 < len then some (incomplete, 0) else utf8Continue valid len u 1 rest
      if c ≥ 0xf0 then long (c.toNat % 8) 0xffff 3
      else if c ≥ 0xe0 then long (c.toNat % 16) 0x7ff 2
      else if c ≥ 0xc2 then long (c.toNat % 32) 0x7f 1
      else some (invalid, 1)

-- ctx->table: no page stands for NULL.
abbrev Table := Nat → Option (Nat → UInt8)

-- ngx_sprintf(dst, "&#%uD;", n)
def entity (n : Nat) : Bytes := (Printf.sprintf 0 (ngxString "&#%uD;") [.word (BitVec.ofNat 64 n)]).getD []

-- NGX_HTML_ENTITY_LEN and NGX_UTF_LEN
def entityLen : Nat := 10

def utfLen : Nat := 4

-- The character of the other charset, or NUL
def lookup (table : Table) (n : Nat) : UInt8 := ((table (n / 256)).map fun p => p (n % 256)).getD 0

-- What is written for a value that is not incomplete
def symbol (table : Table) (n : Nat) : Bytes :=
  if n < 0x10000 then
    if lookup table n ≠ 0 then [lookup table n] else entity n
  else if n > 0x10ffff then [63]
  else entity n

-- saved has NGX_UTF_LEN bytes. buffers counts the calls of ngx_http_charset_get_buffer.
structure Ctx where
  saved : Bytes
  savedLen : Nat
  buffers : Nat

def Ctx.initial : Ctx := ⟨[0, 0, 0, 0], 0, 0⟩

-- A buf of the chain that is returned: its bytes, and how many fit in it
structure Out where
  bytes : Bytes
  room : Nat

-- none is a write behind the end of the buffer.
def Out.put (b : Out) (text : Bytes) : Option Out :=
  if b.bytes.length + text.length ≤ b.room then some { b with bytes := b.bytes ++ text } else none

-- ngx_memcpy(&ctx->saved[i], text, len); none is a write behind ctx->saved or a read behind the text.
def Ctx.save (ctx : Ctx) (i : Nat) (text : Bytes) (len : Nat) : Option Ctx :=
  if i + len ≤ utfLen ∧ len ≤ text.length then
    some { ctx with saved := ctx.saved.take i ++ text.take len ++ ctx.saved.drop (i + len) }
  else none

-- By how much a buffer is longer than what was asked for
variable (extra : Nat → Nat) (table : Table)

-- ngx_http_charset_get_buffer
def getBuffer (ctx : Ctx) (size : Nat) : Ctx × Out :=
  ({ ctx with buffers := ctx.buffers + 1 }, ⟨[], size + extra ctx.buffers⟩)

-- The loop behind the label recode, with the bufs that are full, the buf and the bytes from src on
def recodeLoop : Nat → Ctx → List Out → Out → Bytes → Option (Ctx × List Out)
  | 0, _, _, _, _ => none
  | _ + 1, ctx, done, b, [] => some (ctx, done ++ [b])
  | fuel + 1, ctx, done, b, c :: rest =>
      let full := b.room - b.bytes.length < entityLen
      let (ctx', next) := getBuffer extra ctx (rest.length + 1 + entityLen)
      let (ctx, done, b) := if full then (ctx', done ++ [b], next) else (ctx, done, b)
      if c < 0x80 then (b.put [c]).bind fun b => recodeLoop fuel ctx done b rest
      else
        (utf8Decode (c :: rest) (rest.length + 1)).bind fun (n, k) =>
          if n = incomplete then
            (ctx.save 0 (c :: rest) (rest.length + 1)).map fun ctx =>
              ({ ctx with savedLen := rest.length + 1 }, done ++ [b])
          else (b.put (symbol table n)).bind fun b => recodeLoop fuel ctx done b ((c :: rest).drop k)

def entitySize (size : Nat) : Nat := if size < entityLen then size + entityLen else size

-- From the allocation of the buffer on
def recode (ctx : Ctx) (done : List Out) (size : Nat) (first src : Bytes) : Option (Ctx × List Out) :=
  let (ctx, b) := getBuffer extra ctx (entitySize size)
  (b.put first).bind fun b => recodeLoop extra table (src.length + 1) ctx done b src

-- for (i = ctx->saved_len; i < NGX_UTF_LEN; i++) { ctx->saved[i] = *p++; if (p == buf->last) { break; } }
def fill : Nat → Nat → Bytes → Bytes → Option (Bytes × Nat)
  | 0, i, saved, _ => some (saved, i)
  | _ + 1, _, _, [] => none
  | _ + 1, i, saved, [c] => some (saved.set i c, i)
  | left + 1, i, saved, c :: p => fill left (i + 1) (saved.set i c) p

-- ngx_http_charset_recode_from_utf8 on a buf with these bytes; none is an access outside of a buf or of ctx->saved.
def recodeFromUtf8 (ctx : Ctx) (buf : Bytes) : Option (Ctx × List Out) :=
  if ctx.savedLen = 0 then
    let front := buf.takeWhile (· < 0x80)
    let src := buf.drop front.length
    -- out->buf = buf
    if src = [] then some (ctx, [⟨buf, buf.length⟩])
    else if front.length > 512 then
      (utf8Decode src src.length).bind fun (n, _) =>
        if n = incomplete then
          (ctx.save 0 src src.length).map fun ctx => ({ ctx with savedLen := src.length }, [⟨front, front.length⟩])
        else recode extra table ctx [⟨front, front.length⟩] src.length [] src
    else recode extra table ctx [] buf.length [] buf
  else
    (fill (utfLen - ctx.savedLen) ctx.savedLen ctx.saved buf).bind fun (saved, i) =>
      let ctx := { ctx with saved }
      (utf8Decode saved i).bind fun (n, k) =>
        if n = incomplete ∧ i < utfLen then
          -- a buf without bytes that shadows the one that came in
          (ctx.save ctx.savedLen buf i).map fun ctx => ({ ctx with savedLen := ctx.savedLen + i }, [⟨[], 0⟩])
        else
          let (first, k) := if n = incomplete then ([63], utfLen) else (symbol table n, k)
          -- src += (saved - ctx->saved) - ctx->saved_len
          if k < ctx.savedLen then none
          else recode extra table { ctx with savedLen := 0 } [] buf.length first (buf.drop (k - ctx.savedLen))

def outBytes (out : List Out) : Bytes := out.flatMap Out.bytes

-- The part of ngx_http_charset_body_filter that recodes; an empty buf is passed on.
def bodyFilter : Ctx → List Bytes → Option (Ctx × List Out)
  | ctx, [] => some (ctx, [])
  | ctx, [] :: bufs => (bodyFilter ctx bufs).map fun (ctx, out) => (ctx, ⟨[], 0⟩ :: out)
  | ctx, buf :: bufs =>
      (recodeFromUtf8 extra table ctx buf).bind fun (ctx, out) =>
        (bodyFilter ctx bufs).map fun (ctx, more) => (ctx, out ++ more)

end Nginx.CharsetFilter
