import Nginx.Core.Bytes
import Nginx.Library.ByteMemory

-- ngx_http_upstream.c: the body of a response that is not buffered, with the default input filter.
namespace Nginx.NonBuffered

open ByteMemory

-- A buf of out_bufs or busy_bufs, a part of u->buffer. The code does not have made, which is what the memory held there
-- when the input filter made the buf.
structure Piece where
  pos : Nat
  last : Nat
  made : Bytes

namespace Piece

-- ngx_buf_size, for a buf with memory set
def size (p : Piece) : Nat := p.last - p.pos

def bytes (mem : Memory) (p : Piece) : Bytes := load mem p.pos p.size

-- The filters behind have consumed n bytes of it, or all of it.
def advance (n : Nat) (p : Piece) : Piece := { p with pos := p.pos + min n p.size }

end Piece

def contents (mem : Memory) (chain : List Piece) : Bytes := chain.flatMap (Piece.bytes mem)

-- NGX_MAX_SIZE_T_VALUE
def maxSize : Nat := 2 ^ 64 - 1

-- What runs next: an event handler, the loop of process_non_buffered_request with its do_write, or nothing any more.
-- done is its finalize_request for busy_bufs == NULL, and failed is any other one.
inductive Stage where
  | waiting
  | turn (doWrite : Bool)
  | done
  | failed
  deriving DecidableEq, Repr

-- Of u: start, pos, last and bufEnd are those of u->buffer, freeBufs is the length of free_bufs, and closed is eof or
-- error of u->peer.connection->read. received is what the input filter was called for, and passed is what the bufs
-- held that ngx_http_output_filter was called with.
structure Upstream where
  mem : Memory
  start : Nat
  pos : Nat
  last : Nat
  bufEnd : Nat
  outBufs : List Piece
  busyBufs : List Piece
  freeBufs : Nat
  length : Nat
  closed : Bool
  responseLength : Nat
  stage : Stage
  received : Bytes
  passed : Bytes

-- What upstream->recv answers. It writes no more than it was asked for; none is 0 or NGX_ERROR, and tells whether it
-- has set eof or error.
inductive Recv where
  | again
  | bytes (b : UInt8) (more : Bytes)
  | none (ended : Bool)

-- What the calls in one turn of the loop answer: how much of each busy buf the output filter consumes, whether it
-- returns NGX_ERROR, read->ready, recv, whether there is memory for a buf, and whether the event handlers are set.
structure Turn where
  taken : List Nat
  refused : Bool
  ready : Bool
  recv : Recv
  memory : Bool
  handled : Bool

def Upstream.fail (u : Upstream) : Upstream := { u with stage := .failed }

-- ngx_http_upstream_non_buffered_filter; none is NGX_ERROR.
def inputFilter (memory : Bool) (bytes : Nat) (u : Upstream) : Option Upstream :=
  if u.freeBufs = 0 ∧ memory = false then none
  else
    some
      { u with
        freeBufs := u.freeBufs - 1
        outBufs := u.outBufs ++ [⟨u.last, u.last + bytes, load u.mem u.last bytes⟩]
        last := u.last + bytes
        length := if u.length = maxSize then u.length else toSize (u.length - bytes)
        received := u.received ++ load u.mem u.last bytes }

def consume : List Nat → List Piece → List Piece
  | _, [] => []
  | [], chain => chain
  | n :: taken, p :: chain => p.advance n :: consume taken chain

def outputFilter (taken : List Nat) (u : Upstream) : Upstream :=
  { u with
    passed := u.passed ++ contents u.mem u.outBufs
    busyBufs := consume taken u.busyBufs
    outBufs := consume (taken.drop u.busyBufs.length) u.outBufs }

-- The loop of ngx_chain_update_chains over the busy bufs, and how many are free; all have the tag.
def recycle : List Piece → Nat → List Piece × Nat
  | [], free => ([], free)
  | p :: busy, free => if p.size ≠ 0 then (p :: busy, free) else recycle busy (free + 1)

-- ngx_chain_update_chains
def updateChains (u : Upstream) : Upstream :=
  let (busy, free) := recycle (u.busyBufs ++ u.outBufs) u.freeBufs
  { u with busyBufs := busy, freeBufs := free, outBufs := [] }

-- Behind the loop
def setEvents (t : Turn) (u : Upstream) : Upstream := if t.handled then { u with stage := .waiting } else u.fail

-- The turn from the size on
def readMore (t : Turn) (u : Upstream) : Upstream :=
  let size := min (u.bufEnd - u.last) u.length
  if size ≠ 0 ∧ t.ready = true then
    match t.recv with
    | .again => setEvents t u
    | .bytes b more =>
      let data := (b :: more).take size
      let u := { u with mem := store u.mem u.last data, responseLength := u.responseLength + data.length }
      match inputFilter t.memory data.length u with
      | none => u.fail
      | some u => { u with stage := .turn true }
    | .none ended => { u with closed := u.closed || ended, stage := .turn true }
  else setEvents t u

-- The turn from the test of busy_bufs on
def rewind (t : Turn) (u : Upstream) : Upstream :=
  if u.busyBufs.isEmpty then
    if u.length = 0 ∨ u.closed = true then { u with stage := .done }
    else readMore t { u with pos := u.start, last := u.start }
  else readMore t u

-- One turn of the loop of ngx_http_upstream_process_non_buffered_request
def turn (t : Turn) (doWrite : Bool) (u : Upstream) : Upstream :=
  if doWrite then
    if !u.outBufs.isEmpty || !u.busyBufs.isEmpty then
      let u := outputFilter t.taken u
      if t.refused then u.fail else rewind t (updateChains u)
    else rewind t u
  else readMore t u

-- ngx_http_upstream_process_non_buffered_downstream and ngx_http_upstream_process_non_buffered_upstream up to the loop
def downstream (timedout : Bool) (u : Upstream) : Upstream :=
  if timedout then u.fail else { u with stage := .turn true }

def upstream (timedout : Bool) (u : Upstream) : Upstream :=
  if timedout then u.fail else { u with stage := .turn (u.length = 0) }

-- What ngx_http_upstream_send_response finds: memory for a buf, ngx_http_send_special, read->ready and the time-outs.
structure Entry where
  memory : Bool
  flushed : Bool
  ready : Bool
  timedout : Bool

-- The end of ngx_http_upstream_send_response, for a response that is not buffered
def sendResponse (e : Entry) (u : Upstream) : Upstream :=
  let n := u.last - u.pos
  if n ≠ 0 then
    let u := { u with last := u.pos, responseLength := u.responseLength + n }
    match inputFilter e.memory n u with
    | none => u.fail
    | some u => downstream e.timedout u
  else
    let u := { u with pos := u.start, last := u.start }
    if !e.flushed then u.fail
    else if e.ready then upstream e.timedout u
    else { u with stage := .waiting }

-- What ngx_http_upstream_process_headers has: the buffer, whose part from pos to last was read with the header, and
-- the Content-Length, an off_t. There is none for -1.
structure Response where
  mem : Memory
  start : Nat
  pos : Nat
  last : Nat
  bufEnd : Nat
  contentLength : Option Nat
  closed : Bool
  startLe : start ≤ pos
  posLe : pos ≤ last
  lastLe : last ≤ bufEnd
  lengthLt : ∀ l, contentLength = some l → l < 2 ^ 63

-- u with the length of ngx_http_upstream_process_headers
def Response.upstream (r : Response) : Upstream where
  mem := r.mem
  start := r.start
  pos := r.pos
  last := r.last
  bufEnd := r.bufEnd
  outBufs := []
  busyBufs := []
  freeBufs := 0
  length := r.contentLength.getD maxSize
  closed := r.closed
  responseLength := 0
  stage := .waiting
  received := []
  passed := []

-- Between the events the filters behind may go on by themselves, as for a subrequest whose output was postponed.
inductive Step : Upstream → Upstream → Prop where
  | turn {u : Upstream} {doWrite : Bool} (t : Turn) (h : u.stage = .turn doWrite) : Step u (turn t doWrite u)
  | downstream {u : Upstream} (timedout : Bool) (h : u.stage = .waiting) : Step u (downstream timedout u)
  | upstream {u : Upstream} (timedout : Bool) (h : u.stage = .waiting) : Step u (upstream timedout u)
  | consume {u : Upstream} (taken : List Nat) (h : u.stage = .waiting) :
      Step u { u with busyBufs := consume taken u.busyBufs }

inductive Reach (r : Response) : Upstream → Prop where
  | start (e : Entry) : Reach r (sendResponse e r.upstream)
  | step {u u' : Upstream} (h : Reach r u) (hs : Step u u') : Reach r u'

end Nginx.NonBuffered
