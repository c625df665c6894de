import Nginx.Core.Printf

namespace Nginx.ChunkedFilter

-- ngx_buf_t; data is what stands between pos and last, or between file_pos and file_last for a buf that is in a file
-- only. started is whether b->start is set, and own whether the tag is the one of this filter.
structure Cell where
  data : Bytes
  started : Bool
  own : Bool
  temporary : Bool
  memory : Bool
  mmap : Bool
  inFile : Bool
  flush : Bool
  sync : Bool
  lastBuf : Bool
deriving DecidableEq, Repr

-- ngx_calloc_buf
def Cell.empty : Cell := ⟨[], false, false, false, false, false, false, false, false, false⟩

def Cell.inMemory (c : Cell) : Bool := c.temporary || c.memory || c.mmap

-- Bufs are named by numbers; free and busy are the chains of the ctx. pending are the bufs that the next filters hold,
-- and sent is what they have consumed.
structure State where
  cells : Nat → Cell
  next : Nat
  free : List Nat
  busy : List Nat
  pending : List Nat
  sent : Bytes
  chunked : Bool
  headerOnly : Bool

def setCell (cells : Nat → Cell) (i : Nat) (c : Cell) : Nat → Cell := fun j => if j = i then c else cells j

def State.set (s : State) (i : Nat) (c : Cell) : State := { s with cells := setCell s.cells i c }

def State.chainData (s : State) (ids : List Nat) : Bytes := ids.flatMap fun i => (s.cells i).data

-- The incoming bufs are new numbers.
def addInput : State → List Cell → State × List Nat
  | s, [] => (s, [])
  | s, c :: input =>
    let (s', ids) := addInput { s.set s.next c with next := s.next + 1 } input
    (s', s.next :: ids)

-- ngx_chain_get_free_buf
def getFreeBuf (s : State) : Nat × State :=
  match s.free with
  | i :: free => (i, { s with free := free })
  | [] => (s.next, { s.set s.next Cell.empty with next := s.next + 1 })

def crlf : Bytes := ngxString "\r\n"

-- ngx_sprintf(chunk, "%xO" CRLF, size)
def sizeLine (size : Nat) : Bytes :=
  (Printf.sprintf 0 (ngxString "%xO\r\n") [.word (BitVec.ofNat 64 size)]).getD []

-- A buf with the size, before the data
def addSize (s : State) (size : Nat) : Nat × State :=
  let (i, s) := getFreeBuf s
  (i, s.set i
    { s.cells i with data := sizeLine size, started := true, own := true, memory := false, temporary := true })

-- A buf with a string constant, behind the data
def addText (s : State) (text : Bytes) (lastBuf : Bool) : Nat × State :=
  let (i, s) := getFreeBuf s
  (i, s.set i
    { s.cells i with
      data := text
      own := true
      temporary := false
      memory := true
      lastBuf := if lastBuf then true else (s.cells i).lastBuf })

-- The next filters consume a number of bytes from the front of what they hold.
def consume : Nat → List Nat → State → State
  | _, [], s => { s with pending := [] }
  | n, i :: ids, s =>
    let data := (s.cells i).data
    let s := { s.set i { s.cells i with data := data.drop n } with sent := s.sent ++ data.take n }
    if n < data.length then { s with pending := i :: ids } else consume (n - data.length) ids s

def nextBodyFilter (s : State) (out : List Nat) (eaten : Nat) : State := consume eaten (s.pending ++ out) s

-- The loop of ngx_chain_update_chains over the busy bufs
def recycle : List Nat → State → State
  | [], s => { s with busy := [] }
  | i :: busy, s =>
    if (s.cells i).data.length ≠ 0 then { s with busy := i :: busy }
    else if !(s.cells i).own then recycle busy s
    else recycle busy { s.set i { s.cells i with data := [] } with free := i :: s.free }

-- ngx_chain_update_chains
def updateChains (s : State) (out : List Nat) : State := recycle (s.busy ++ out) s

-- The bufs that are passed on
def passed (c : Cell) : Bool := c.flush || c.sync || c.inMemory || c.inFile

-- ngx_http_chunked_body_filter up to the next filter: the chain for it
def buildChain (s : State) (ids : List Nat) : List Nat × State :=
  let size := (ids.map fun i => (s.cells i).data.length).sum
  let out := ids.filter fun i => passed (s.cells i)
  let (head, s) :=
    if size ≠ 0 then
      let (i, s) := addSize s size
      ([i], s)
    else ([], s)
  match ids.getLast? with
  | none => (head ++ out, s)
  | some last =>
    if (s.cells last).lastBuf then
      let text := ngxString "\r\n0\r\n\r\n"
      let (i, s) := addText s (if size = 0 then text.drop 2 else text) true
      (head ++ out ++ [i], s.set last { s.cells last with lastBuf := false })
    else if 0 < size then
      let (i, s) := addText s crlf false
      (head ++ out ++ [i], s)
    else (head ++ out, s)

-- ngx_http_chunked_body_filter; no bufs stand for NULL, and eaten is how much the next filters consume.
def bodyFilter (s : State) (input : List Cell) (eaten : Nat) : State :=
  let (s, ids) := addInput s input
  if input.isEmpty || !s.chunked || s.headerOnly then nextBodyFilter s ids eaten
  else
    let (out, s) := buildChain s ids
    updateChains (nextBodyFilter s out eaten) out

def runCalls (s : State) (calls : List (List Cell × Nat)) : State :=
  calls.foldl (fun s call => bodyFilter s call.1 call.2) s

-- The state that the header filter leaves
def State.initial (cells : Nat → Cell) (next : Nat) : State := ⟨cells, next, [], [], [], [], true, false⟩

end Nginx.ChunkedFilter
