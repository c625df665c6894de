import Nginx.Core.Bytes
import Nginx.Core.Buf
import Nginx.Core.Printf

namespace Nginx.RangeFilter

-- ngx_http_range_t
structure Range where
  start : Int
  stop : Int
deriving DecidableEq

inductive Rc where
  | ok
  | notSatisfiable
  | declined
  | error
deriving DecidableEq

-- *p in a string that ends with a NUL
def peek (p : Bytes) : UInt8 := p.headD 0

def isDigit (c : UInt8) : Bool := 48 ≤ c && c ≤ 57

-- while (*p == ' ') { p++; }
def skipSpaces (p : Bytes) : Bytes := p.dropWhile (· = 32)

-- while (*p >= '0' && *p <= '9') { n = n * 10 + *p++ - '0'; }
def number (n : Int) : Bytes → Int × Bytes
  | [] => (n, [])
  | c :: p => if isDigit c then number (toInt64 (n * 10 + c.toNat - 48)) p else (n, c :: p)

-- From the digits of end to found.
def parseEnd (len : Int) (suffix : Bool) (start : Int) (p : Bytes) : Option (Range × Bytes) :=
  if !isDigit (peek p) then none
  else
    let (stop, p) := number 0 p
    let p := skipSpaces p
    if peek p ≠ 44 ∧ peek p ≠ 0 then none
    else
      let (start, stop) := if suffix then (toInt64 (len - stop), len - 1) else (start, stop)
      some (⟨start, if stop ≥ len then len else stop + 1⟩, p)

-- The loop body up to found, with start and end there; none is NGX_HTTP_RANGE_NOT_SATISFIABLE.
def parseSpec (len : Int) (p : Bytes) : Option (Range × Bytes) :=
  let p := skipSpaces p
  if peek p ≠ 45 then
    if !isDigit (peek p) then none
    else
      let (start, p) := number 0 p
      let p := skipSpaces p
      if peek p ≠ 45 then none
      else
        let p := skipSpaces p.tail
        if peek p = 44 ∨ peek p = 0 then some (⟨start, len⟩, p) else parseEnd len false start p
  else parseEnd len true 0 p.tail

variable (push : Nat → Bool)

-- After the loop.
def finish (len size : Int) (out : List Range) : Rc :=
  if out.length = 0 then .notSatisfiable else if size > len then .declined else .ok

-- push n tells whether ngx_array_push succeeds on an array of n elements.
def parseLoop (len : Int) : Nat → Bytes → Nat → Int → List Range → Option (Rc × List Range)
  | 0, _, _, _, _ => none
  | fuel + 1, p, ranges, size, out =>
      match parseSpec len p with
      | none => some (.notSatisfiable, out)
      | some (range, p) =>
          if range.start < range.stop then
            if !push out.length then some (.error, out)
            else
              let out := out ++ [range]
              let size := toInt64 (size + (range.stop - range.start))
              if ranges = 0 then some (.declined, out)
              else if peek p = 44 then parseLoop len fuel p.tail (ranges - 1) size out
              else some (finish len size out, out)
          else if peek p = 44 then parseLoop len fuel p.tail ranges size out
          else some (finish len size out, out)

-- ngx_http_range_parse, with the result and ctx->ranges
def parse (value : Bytes) (contentLength : Int) (ranges : Nat) : Option (Rc × List Range) :=
  parseLoop push contentLength (value.length + 1) (value.drop 6) ranges 0 []

-- What a Range header can ask for.
inductive Spec where
  | between (first last : Nat)
  | since (first : Nat)
  | suffix (count : Nat)

-- The bytes that a spec selects of len bytes.
def Spec.select (len : Int) : Spec → Option Range
  | .between a b => if (a : Int) < min ((b : Int) + 1) len then some ⟨a, min ((b : Int) + 1) len⟩ else none
  | .since a => if (a : Int) < len then some ⟨a, len⟩ else none
  | .suffix n => if 0 < n ∧ 0 < len then some ⟨max (len - n) 0, len⟩ else none

def value (ds : Bytes) : Nat := ds.foldl (fun n c => n * 10 + (c.toNat - 48)) 0

def Numeral (ds : Bytes) (n : Nat) : Prop := ds ≠ [] ∧ (∀ c ∈ ds, isDigit c = true) ∧ value ds = n

def Blank (p : Bytes) : Prop := ∀ c ∈ p, c = 32

-- The text of one spec.
inductive Denotes : Bytes → Spec → Prop where
  | between {s₁ a s₂ s₃ b s₄ : Bytes} {m n : Nat} : Blank s₁ → Numeral a m → Blank s₂ → Blank s₃ → Numeral b n →
      Blank s₄ → Denotes (s₁ ++ (a ++ (s₂ ++ 45 :: (s₃ ++ (b ++ s₄))))) (.between m n)
  | since {s₁ a s₂ s₃ : Bytes} {m : Nat} : Blank s₁ → Numeral a m → Blank s₂ → Blank s₃ →
      Denotes (s₁ ++ (a ++ (s₂ ++ 45 :: s₃))) (.since m)
  | suffix {s₁ b s₂ : Bytes} {n : Nat} : Blank s₁ → Numeral b n → Blank s₂ →
      Denotes (s₁ ++ 45 :: (b ++ s₂)) (.suffix n)

-- The text of a list of specs, up to a NUL or the end.
inductive Header : Bytes → List Spec → Prop where
  | last {f rest : Bytes} {s : Spec} : Denotes f s → peek rest = 0 → Header (f ++ rest) [s]
  | more {f rest : Bytes} {s : Spec} {specs : List Spec} : Denotes f s → Header rest specs →
      Header (f ++ 44 :: rest) (s :: specs)

def Range.length (r : Range) : Int := r.stop - r.start

-- What an accepted header has to give.
structure Selected (text : Bytes) (len : Int) (ranges : Nat) (out : List Range) : Prop where
  nonempty : 1 ≤ out.length
  le_ranges : out.length ≤ ranges
  bounds : ∀ r ∈ out, 0 ≤ r.start ∧ r.start < r.stop ∧ r.stop ≤ len
  meaning : ∃ specs, Header text specs ∧ out = specs.filterMap (Spec.select len)
  total : (out.map Range.length).sum ≤ len

end Nginx.RangeFilter

namespace Nginx

-- What a buf loses from its end
def Buf.retreat (n : Nat) (b : Buf) : Buf :=
  { b with
    last := if b.inMemory then b.last - n else b.last
    fileLast := if b.inFile then b.fileLast - n else b.fileLast }

-- A buf that is left out has been consumed.
def Buf.skip (b : Buf) : Buf :=
  { b with filePos := if b.inFile then b.fileLast else b.filePos, pos := b.last, sync := true }

namespace RangeFilter

-- ctx->offset, the chain for the next filter, and the bufs that came in as the filter leaves them
structure Step where
  offset : Int
  out : Chain
  left : Chain

def Step.pass (b : Buf) (s : Step) : Step := { s with out := b :: s.out, left := b :: s.left }

def Step.leave (b : Buf) (s : Step) : Step := { s with left := b :: s.left }

-- The loop of ngx_http_range_singlepart_body
def singlepartBody (range : Range) : Int → Chain → Step
  | offset, [] => ⟨offset, [], []⟩
  | offset, buf :: cl =>
      let start := offset
      let last := offset + buf.size
      if buf.special then (singlepartBody range last cl).pass buf
      else if range.stop ≤ start ∨ range.start ≥ last then (singlepartBody range last cl).leave buf.skip
      else
        let buf := if range.start > start then buf.advance (range.start - start).toNat else buf
        if range.stop ≤ last then
          let buf := { buf.retreat (last - range.stop).toNat with lastBuf := true }
          -- cl->next = NULL; break
          ⟨last, [buf], buf :: cl⟩
        else (singlepartBody range last cl).pass buf

-- ngx_http_range_body_filter with one range over the calls of a request: all that the next filter is given
def singlepartRun (range : Range) : Int → List Chain → Chain
  | _, [] => []
  | offset, call :: calls =>
      let s := singlepartBody range offset call
      s.out ++ singlepartRun range s.offset calls

-- What the filter reads and sets of r->headers_out
structure HeadersOut where
  contentType : Bytes
  charset : Bytes
  contentLengthN : Int

-- ngx_http_range_filter_ctx_t with more than one range: the header of a boundary, and the ranges with their
-- content_range
structure Multipart where
  boundaryHeader : Bytes
  ranges : List (Range × Bytes)

-- What ngx_http_range_multipart_header allocates: for the header of a boundary, the content type and a content_range
def boundaryHeaderRoom (h : HeadersOut) : Nat :=
  4 + Printf.int64Len + 16 + h.contentType.length + 23 + if h.charset.length ≠ 0 then 10 + h.charset.length else 0

def contentTypeRoom : Nat := 45 + Printf.int64Len

def contentRangeRoom : Nat := 3 * 20 + 2 + 4

-- ctx->boundary_header, written from an address on
def boundaryHeader (addr : Nat) (boundary : BitVec 64) (h : HeadersOut) : Option Bytes :=
  if h.charset.length ≠ 0 then
    Printf.sprintf addr (ngxString "\r\n--%0muA\r\nContent-Type: %V; charset=%V\r\nContent-Range: bytes ")
      [.word boundary, .str h.contentType, .str h.charset]
  else if h.contentType.length ≠ 0 then
    Printf.sprintf addr (ngxString "\r\n--%0muA\r\nContent-Type: %V\r\nContent-Range: bytes ")
      [.word boundary, .str h.contentType]
  else
    Printf.sprintf addr (ngxString "\r\n--%0muA\r\nContent-Range: bytes ") [.word boundary]

def contentRange (addr : Nat) (contentLength : Int) (range : Range) : Option Bytes :=
  Printf.sprintf addr (ngxString "%O-%O/%O\r\n\r\n")
    [.word (BitVec.ofInt 64 range.start), .word (BitVec.ofInt 64 (range.stop - 1)), .word (BitVec.ofInt 64 contentLength)]

-- The loop over the ranges, from the i-th address on
def multipartRanges (alloc : Nat → Nat) (headerLen : Nat) (contentLength : Int) :
    Nat → Nat → List Range → Option (Nat × List (Range × Bytes))
  | _, len, [] => some (len, [])
  | i, len, range :: ranges => do
      let text ← contentRange (alloc i) contentLength range
      let len := (len + headerLen + text.length + toSize (range.stop - range.start)) % 2 ^ 64
      let (len, rest) ← multipartRanges alloc headerLen contentLength (i + 1) len ranges
      some (len, (range, text) :: rest)

-- ngx_http_range_multipart_header; alloc are the addresses that ngx_pnalloc gives.
def multipartHeader (alloc : Nat → Nat) (boundary : BitVec 64) (ranges : List Range) (h : HeadersOut) :
    Option (Multipart × HeadersOut) := do
  let header ← boundaryHeader (alloc 0) boundary h
  let contentType ← Printf.sprintf (alloc 1) (ngxString "multipart/byteranges; boundary=%0muA") [.word boundary]
  let (len, ranges) ←
    multipartRanges alloc header.length h.contentLengthN 2 (4 + Printf.int64Len + 4) ranges
  some (⟨header, ranges⟩, ⟨contentType, [], toInt64 len⟩)

-- A buf that the filter fills with a text, or one with data
inductive Out where
  | text (data : Bytes) (lastBuf : Bool)
  | buf (b : Buf)

def Out.bytes (w : World) : Out → Bytes
  | .text data _ => data
  | .buf b => b.bytes w

def outBytes (w : World) (out : List Out) : Bytes := out.flatMap (Out.bytes w)

-- ngx_http_range_test_overlapped: ctx->offset after it, or NGX_ERROR
def testOverlapped (ranges : List Range) (offset : Int) (buf : Buf) : Option Int :=
  if offset ≠ 0 then none
  else if !buf.lastBuf && ranges.any fun r => decide (offset > r.start ∨ offset + buf.size < r.stop) then none
  else some buf.size

-- The range data
def rangeBuf (buf : Buf) (range : Range) : Buf :=
  { Buf.empty with
    inFile := buf.inFile
    temporary := buf.temporary
    memory := buf.memory
    mmap := buf.mmap
    file := buf.file
    filePos := if buf.inFile then buf.filePos + range.start.toNat else 0
    fileLast := if buf.inFile then buf.filePos + range.stop.toNat else 0
    pos := if buf.inMemory then buf.pos + range.start.toNat else 0
    last := if buf.inMemory then buf.pos + range.stop.toNat else 0 }

-- ngx_http_range_multipart_body
def multipartBody (ctx : Multipart) (buf : Buf) : List Out :=
  (ctx.ranges.flatMap fun (range, text) =>
      [.text ctx.boundaryHeader false, .text text false, .buf (rangeBuf buf range)]) ++
    [.text (ctx.boundaryHeader.take (4 + Printf.int64Len) ++ ngxString "--\r\n") true]

-- ngx_http_range_body_filter with more than one range; none is NGX_ERROR.
def multipartFilter (ctx : Multipart) (offset : Int) : Chain → Option (Int × List Out)
  | [] => some (offset, [])
  | buf :: cl =>
      if buf.special then some (offset, (buf :: cl).map .buf)
      else (testOverlapped (ctx.ranges.map Prod.fst) offset buf).map fun offset => (offset, multipartBody ctx buf)

end RangeFilter

end Nginx
