import Nginx.Core.Bytes
import Nginx.Library.DomainName

namespace Nginx.Core.Resolver

open ByteMemory

inductive Rc | ok | error | declined
  deriving DecidableEq, Repr

-- How the measuring loop of ngx_resolver_copy ends: at done, or at invalid with its message.
inductive Measured | done (len : Int) | invalid (err : Bytes)
  deriving DecidableEq, Repr

def outOfResponse : Bytes := ngxString "name is out of response"

def pointersLoop : Bytes := ngxString "compression pointers loop"

-- The measuring loop, with the offsets it reads. All offsets count from buf.
def measure (buf : Memory) (last : Nat) : Nat → Nat → Int → Measured × List Nat
  | 0, _, _ => (.invalid pointersLoop, [])
  | i + 1, p, len =>
      let n := (buf p).toNat
      if n = 0 then (.done len, [p])
      else
        let (q, len, reads) :=
          if n &&& 0xc0 ≠ 0 then (((n &&& 0x3f) <<< 8) + (buf (p + 1)).toNat, len, [p, p + 1])
          else (p + 1 + n, len + (1 + n), [p])
        if last ≤ q then (.invalid outOfResponse, reads)
        else
          let (m, rest) := measure buf last i q len
          (m, reads ++ rest)

-- The copying loop: what stands in the allocated memory after it, and the offsets it reads.
-- It has no bound in the source.
def copyLoop (buf : Memory) : Nat → Nat → Nat → Bytes → Option (Bytes × List Nat)
  | 0, _, _, _ => none
  | fuel + 1, n, src, dst =>
      if n &&& 0xc0 ≠ 0 then
        let q := ((n &&& 0x3f) <<< 8) + (buf src).toNat
        let n := (buf q).toNat
        if n = 0 then some (dst, [src, q])
        else do
          let (dst, rest) ← copyLoop buf fuel n (q + 1) dst
          some (dst, [src, q] ++ rest)
      else
        let reads := (List.range n).map (src + ·) ++ [src + n]
        let dst := dst ++ load buf src n
        let src := src + n
        let n := (buf src).toNat
        if n = 0 then some (dst, reads)
        else do
          let (dst, rest) ← copyLoop buf fuel n (src + 1) (dst ++ [46])
          some (dst, reads ++ rest)

-- name is what name->data and name->len give after the call, none when they are not set;
-- dst is what was written to the allocated bytes.
structure Copied where
  rc : Rc
  name : Option Bytes
  allocated : Nat
  dst : Bytes
  reads : List Nat
  deriving DecidableEq, Repr

-- ngx_resolver_copy. The name may be NULL, and ngx_resolver_alloc may fail.
def copy (fuel : Nat) (buf : Memory) (src last : Nat) (name alloc : Bool) : Option Copied :=
  match measure buf last 128 src (-1) with
  | (.invalid _, reads) => some ⟨.error, none, 0, [], reads⟩
  | (.done len, reads) =>
      if !name then some ⟨.ok, none, 0, [], reads⟩
      else if len = -1 then some ⟨.ok, some [], 0, [], reads⟩
      else if !alloc then some ⟨.error, none, 0, [], reads⟩
      else do
        let (dst, rest) ← copyLoop buf fuel (buf src).toNat (src + 1) []
        some ⟨.ok, some dst, len.toNat, dst, reads ++ src :: rest⟩

-- The memory a query is built in, and the offsets that were written.
structure Block where
  mem : Memory
  writes : List Nat

def Block.put (b : Block) (p : Nat) (c : UInt8) : Block := ⟨store b.mem p [c], p :: b.writes⟩

-- Stores to fields that follow each other.
def Block.putAll (b : Block) (p : Nat) : Bytes → Block
  | [] => b
  | c :: cs => (b.put p c).putAll (p + 1) cs

-- The loop over the name, from its last byte back. It gives where p and len end, or NGX_DECLINED.
def encodeLoop : Bytes → Nat → Nat → Block → Option (Nat × Nat) × Block
  | [], p, len, b => (some (p, len), b)
  | c :: s, p, len, b =>
      if c ≠ 46 then encodeLoop s (p - 1) (len + 1) (b.put p c)
      else if len = 0 then (none, b)
      else encodeLoop s (p - 1) 0 (b.put p (UInt8.ofNat len))

structure Created where
  rc : Rc
  allocated : Nat
  qlen : Nat
  query : Block

-- ngx_resolver_create_name_query, on memory that ngx_resolver_alloc gives or refuses, with the
-- number that ngx_random returns.
def createNameQuery (mem : Memory) (alloc : Bool) (name : Bytes) (type ident : Nat) : Created :=
  let nlen := if name.length ≠ 0 then 1 + name.length + 1 else 1
  let len := 12 + nlen + 4
  if !alloc then ⟨.error, 0, 0, ⟨mem, []⟩⟩
  else
    let qlen := len % 2 ^ 16
    let b := Block.putAll ⟨mem, []⟩ 0
      [UInt8.ofNat ((ident >>> 8) &&& 0xff), UInt8.ofNat (ident &&& 0xff), 1, 0, 0, 1, 0, 0, 0, 0, 0, 0]
    let p := 12 + nlen
    let b := b.putAll p [0, UInt8.ofNat type, 0, 1]
    let p := p - 1
    let b := b.put p 0
    match encodeLoop name.reverse (p - 1) 0 b with
    | (none, b) => ⟨.declined, len, qlen, b⟩
    | (some (p, n), b) => ⟨.ok, len, qlen, b.put p (UInt8.ofNat n)⟩

end Nginx.Core.Resolver
