import Nginx.Core.Buf

namespace Nginx.OutputChain

open ByteMemory

-- An ngx_buf_t and the memory that its positions are in. Bufs are named by numbers, and no two share what is written.
structure Cell where
  buf : Buf
  mem : Memory

-- ngx_output_chain_ctx_t; inChain is in, num and size are those of bufs.
structure Ctx where
  buf : Option Nat
  inChain : List Nat
  free : List Nat
  busy : List Nat
  sendfile : Bool
  directio : Bool
  needInMemory : Bool
  needInTemp : Bool
  alignment : Nat
  allocated : Nat
  num : Nat
  size : Nat
  tag : Nat

inductive Code where
  | ok
  | again
  | error
  | done
  deriving DecidableEq, Repr

-- What one call of ctx->output_filter does: how much it consumes of the bufs that it holds, and what it returns
structure Answer where
  eat : Nat → Nat
  rc : Code

-- The files (no file stands for NULL with directio), the answers of the filter, and whether reads and allocations succeed
structure Env where
  file : Nat → Memory
  directio : Nat → Bool
  filter : Nat → Answer
  reads : Nat → Bool
  allocs : Nat → Bool

-- rest is what the filter has not consumed of each buf, and passed is all that it was given.
structure State where
  ctx : Ctx
  cells : Nat → Cell
  next : Nat
  calls : Nat
  readCount : Nat
  asked : Nat
  rest : Nat → Bytes
  passed : Bytes

variable (env : Env)

def Cell.bytes (c : Cell) : Bytes := c.buf.bytes ⟨c.mem, env.file⟩

def State.bytes (s : State) (i : Nat) : Bytes := (s.cells i).bytes env

def State.chainBytes (s : State) (ids : List Nat) : Bytes := ids.flatMap (s.bytes env)

def setCell (cells : Nat → Cell) (i : Nat) (c : Cell) : Nat → Cell := fun j => if j = i then c else cells j

def State.setBuf (s : State) (i : Nat) (b : Buf) : State :=
  { s with cells := setCell s.cells i { s.cells i with buf := b } }

def State.setIn (s : State) (ids : List Nat) : State := { s with ctx := { s.ctx with inChain := ids } }

-- One answer of the allocator
def State.ask (s : State) : Bool × State := (env.allocs s.asked, { s with asked := s.asked + 1 })

-- ngx_output_chain_as_is, with what it makes of the buf
def asIs (ctx : Ctx) (b : Buf) : Bool × Buf :=
  if b.special then (true, b)
  else if b.inFile && env.directio b.file then (false, b)
  else if !ctx.sendfile && !b.inMemory then (false, b)
  else
    let b := if ctx.sendfile then b else { b with inFile := false }
    if ctx.needInMemory && !b.inMemory then (false, b)
    else if ctx.needInTemp && (b.memory || b.mmap) then (false, b)
    else (true, b)

-- ngx_calloc_buf and the memory of the buf
def newBuf (s : State) (b : Buf) : Option Nat × State :=
  let (found, s) := s.ask env
  if !found then (none, s)
  else
    let (found, s) := s.ask env
    if !found then (none, s)
    else
      (some s.next,
        { s with
          cells := setCell s.cells s.next ⟨b, fun _ => 0⟩
          next := s.next + 1
          ctx := { s.ctx with buf := some s.next } })

inductive Taken where
  | got (d : Nat) (s : State)
  | declined (s : State)
  | full (s : State)
  | error (s : State)

def Taken.ofNew : Option Nat × State → Taken
  | (some d, s) => .got d s
  | (none, s) => .error s

-- ngx_output_chain_align_file_buf: the tag stays unset, "because we do not want to reuse the buf via ctx->free list".
def alignFileBuf (s : State) (i bsize : Nat) : Taken :=
  let b := (s.cells i).buf
  if !env.directio b.file then .declined s
  else
    let s := { s with ctx := { s.ctx with directio := true } }
    let unaligned := b.filePos &&& (s.ctx.alignment - 1)
    if unaligned = 0 ∧ s.ctx.size ≤ bsize then .declined s
    else
      let size := if unaligned = 0 then bsize else min (s.ctx.alignment - unaligned) bsize
      .ofNew (newBuf env s { Buf.empty with bufEnd := size, temporary := true })

-- ngx_output_chain_get_buf
def getBuf (s : State) (i bsize : Nat) : Taken :=
  let small := (s.cells i).buf.lastInChain &&
    (bsize < s.ctx.size || (!s.ctx.directio && s.ctx.num == 1 && bsize < s.ctx.size + s.ctx.size / 4))
  let size := if small then bsize else s.ctx.size
  match newBuf env s { Buf.empty with bufEnd := size, temporary := true, tag := s.ctx.tag, recycled := !small } with
  | (some d, s) => .got d { s with ctx := { s.ctx with allocated := s.ctx.allocated + 1 } }
  | (none, s) => .error s

-- The buf to copy to: ctx->buf, an aligned one, a free one or a new one
def takeBuf (s : State) (out : List Nat) (i bsize : Nat) : Taken :=
  match s.ctx.buf with
  | some d => .got d s
  | none =>
    match alignFileBuf env s i bsize with
    | .declined s =>
      match s.ctx.free with
      | d :: free => .got d { s with ctx := { s.ctx with buf := some d, free := free } }
      | [] => if out ≠ [] ∨ s.ctx.allocated = s.ctx.num then .full s else getBuf env s i bsize
    | taken => taken

-- dst->in_file with the range of the file, when sendfile can be used
def markFile (mark : Bool) (src dst : Buf) (size : Nat) : Buf :=
  if mark then { dst with inFile := true, file := src.file, filePos := src.filePos, fileLast := src.filePos + size }
  else { dst with inFile := false }

def moveFlags (finished : Bool) (src dst : Buf) : Buf :=
  if finished then { dst with flush := src.flush, lastBuf := src.lastBuf, lastInChain := src.lastInChain } else dst

-- ngx_output_chain_copy_buf from src to dst, with what it reads written to the memory of dst; none is an error of the file
def copyBuf (s : State) (i d : Nat) : Option State :=
  let src := (s.cells i).buf
  let dst := (s.cells d).buf
  let size := min src.size (dst.bufEnd - dst.pos)
  let sendfile := s.ctx.sendfile && !s.ctx.directio
  let grown := { dst with last := dst.last + size }
  if src.inMemory then
    let moved := src.advance size
    let dst' := moveFlags (moved.pos == moved.last) src (markFile (src.inFile && sendfile) src grown size)
    let mem := store (s.cells d).mem dst.pos (load (s.cells i).mem src.pos size)
    some { s with cells := setCell (setCell s.cells i { s.cells i with buf := moved }) d ⟨dst', mem⟩ }
  else if !env.reads s.readCount then none
  else
    let moved := { src with filePos := src.filePos + size }
    let dst' := moveFlags (moved.filePos == moved.fileLast) src (markFile sendfile src grown size)
    let mem := store (s.cells d).mem dst.pos (load (env.file src.file) src.filePos size)
    some { s with
      cells := setCell (setCell s.cells i { s.cells i with buf := moved }) d ⟨dst', mem⟩
      readCount := s.readCount + 1 }

-- One turn of while (ctx->in)
inductive Filled where
  | more (s : State) (out : List Nat)
  | full (s : State)
  | error (s : State)

def fill (s : State) (out : List Nat) : Filled :=
  match s.ctx.inChain with
  | [] => .full s
  | i :: rest =>
    let bsize := (s.cells i).buf.size
    if bsize = 0 ∧ (s.cells i).buf.special = false then .more (s.setIn rest) out
    else
      let (whole, b) := asIs env s.ctx (s.cells i).buf
      let s := s.setBuf i b
      if whole then .more (s.setIn rest) (out ++ [i])
      else
        match takeBuf env s out i bsize with
        | .got d s =>
          match copyBuf env s i d with
          | none => .error s
          | some s =>
            let s := if (s.cells i).buf.size = 0 then s.setIn rest else s
            let (found, s) := s.ask env
            if found then .more { s with ctx := { s.ctx with buf := none } } (out ++ [d]) else .error s
        | .full s => .full s
        | .declined s => .full s
        | .error s => .error s

-- What the filter holds of a buf when it is given the chain, and how much of that it consumes
def State.held (s : State) (out : List Nat) (i : Nat) : Bytes := if i ∈ out then s.bytes env i else s.rest i

def State.eaten (s : State) (out : List Nat) (i : Nat) : Nat :=
  min ((env.filter s.calls).eat i) (s.held env out i).length

-- ctx->output_filter
def callFilter (s : State) (out : List Nat) : Code × State :=
  ((env.filter s.calls).rc,
    { s with
      cells := fun i => { s.cells i with buf := (s.cells i).buf.advance (s.eaten env out i) }
      calls := s.calls + 1
      rest := fun i => (s.held env out i).drop (s.eaten env out i)
      passed := s.passed ++ s.chainBytes env out })

-- The loop of ngx_chain_update_chains over the busy bufs
def recycle (tag : Nat) : List Nat → List Nat → (Nat → Cell) → List Nat × List Nat × (Nat → Cell)
  | [], free, cells => ([], free, cells)
  | i :: busy, free, cells =>
    let b := (cells i).buf
    if b.size ≠ 0 then (i :: busy, free, cells)
    else if b.tag ≠ tag then recycle tag busy free cells
    else recycle tag busy (i :: free) (setCell cells i { cells i with buf := { b with pos := b.start, last := b.start } })

-- ngx_chain_update_chains
def updateChains (s : State) (out : List Nat) : State :=
  let (busy, free, cells) := recycle s.ctx.tag (s.ctx.busy ++ out) s.ctx.free s.cells
  { s with cells := cells, ctx := { s.ctx with busy := busy, free := free } }

-- Where a call stands: in the loop with the local variables out and last, or returned
inductive Place where
  | loop (out : List Nat) (last : Option Code)
  | returned (rc : Code)
  deriving DecidableEq, Repr

-- The part of for ( ;; ) behind while (ctx->in)
def pass (s : State) (out : List Nat) (last : Option Code) : State × Place :=
  match out, last with
  | [], some last => (s, .returned (if s.ctx.inChain ≠ [] then .again else last))
  | out, _ =>
    let (rc, s) := callFilter env s out
    if rc = .error ∨ rc = .done then (s, .returned rc) else (updateChains s out, .loop [] (some rc))

def turn (s : State) (out : List Nat) (last : Option Code) : State × Place :=
  match fill env s out with
  | .more s out => (s, .loop out last)
  | .full s => pass env s out last
  | .error s => (s, .returned .error)

-- The incoming bufs are new numbers.
def addInput : State → List Cell → State × List Nat
  | s, [] => (s, [])
  | s, c :: input =>
    let (s', ids) := addInput { s with cells := setCell s.cells s.next c, next := s.next + 1 } input
    (s', s.next :: ids)

-- ngx_output_chain_add_copy: the ids that found a link
def addCopy : State → List Nat → State × List Nat × Bool
  | s, [] => (s, [], true)
  | s, i :: ids =>
    let (found, s) := s.ask env
    if found then
      let (s, linked, all) := addCopy s ids
      (s, i :: linked, all)
    else (s, [], false)

-- Up to for ( ;; )
def join (s : State) (ids : List Nat) : State × Place :=
  let (s, linked, all) := addCopy env s ids
  let s := s.setIn (s.ctx.inChain ++ linked)
  if all then (s, .loop [] none) else (s, .returned .error)

-- ngx_output_chain up to its loop, with the short path
def start (s : State) (input : List Cell) : State × Place :=
  let (s, ids) := addInput s input
  if s.ctx.inChain = [] ∧ s.ctx.busy = [] then
    match ids with
    | [] =>
      let (rc, s) := callFilter env s []
      (s, .returned rc)
    | [i] =>
      let (whole, b) := asIs env s.ctx (s.cells i).buf
      let s := s.setBuf i b
      if whole then
        let (rc, s) := callFilter env s [i]
        (s, .returned rc)
      else join env s [i]
    | ids => join env s ids
  else join env s ids

-- Any calls with any inputs, stopped at any moment
inductive Run (first : State) : List (List Cell) → State × Place → Prop
  | none : Run first [] (first, .returned .ok)
  | call {inputs : List (List Cell)} {s : State} {rc : Code} (input : List Cell) :
      Run first inputs (s, .returned rc) → Run first (inputs ++ [input]) (start env s input)
  | turn {inputs : List (List Cell)} {s : State} {out : List Nat} {last : Option Code} :
      Run first inputs (s, .loop out last) → Run first inputs (turn env s out last)

end Nginx.OutputChain
