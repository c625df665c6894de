import Nginx.Core.Bytes

namespace Nginx.RequestBody

-- What the buf of a chain link is: the pre-read part in r->header_in, rb->buf or the temporary file.
inductive Link where
  | preread
  | buf
  | file
deriving DecidableEq, Repr

-- ngx_http_request_body_t; buf is what stands between pos and last of rb->buf, size what fits between start and end, and
-- tempFile the contents of the temporary file.
structure Body where
  bufs : List Link := []
  toWrite : List Link := []
  preread : Bytes := []
  buf : Bytes := []
  size : Nat := 0
  rest : Int := 0
  tempFile : Option Bytes := none
deriving DecidableEq, Repr

-- headerIn is what stands between pos and last of r->header_in, room is end - last; expected is whether
-- ngx_http_test_expect succeeds.
structure Request where
  headerIn : Bytes
  room : Nat
  contentLengthN : Int
  inFileOnly : Bool
  inSingleBuf : Bool
  discardBody : Bool := false
  expected : Bool := true
  requestLength : Int := 0
  requestBody : Option Body := none
deriving DecidableEq, Repr

-- c->recv: NGX_AGAIN, the number of bytes less one that are there, the end of the stream or NGX_ERROR; ready is
-- c->read->ready afterwards.
inductive Recv where
  | again (ready : Bool)
  | bytes (n : Nat) (ready : Bool)
  | closed
  | error

-- NGX_OK after post_handler(r), NGX_AGAIN with what has not arrived yet, or the status of an error
inductive Outcome where
  | posted (r : Request)
  | again (r : Request) (b : Body) (input : Bytes)
  | status (n : Nat)
deriving DecidableEq, Repr

def linkData (b : Body) : Link → Bytes
  | .preread => b.preread
  | .buf => b.buf
  | .file => b.tempFile.getD []

def chainData (b : Body) (chain : List Link) : Bytes := chain.flatMap (linkData b)

-- ngx_http_write_request_body; disk tells whether a write at an offset of the temporary file succeeds, none is NGX_ERROR.
def writeRequestBody (disk : Nat → Bool) (b : Body) (chain : List Link) : Option Body :=
  let saved := b.tempFile.getD []
  if disk saved.length then some { b with tempFile := some (saved ++ chainData b chain) } else none

-- rb->bufs->next ? rb->bufs->next : rb->bufs
def nextOrBufs (bufs : List Link) : List Link :=
  match bufs with
  | _ :: l :: next => l :: next
  | bufs => bufs

-- A full rb->buf is written and begun anew.
def makeRoom (disk : Nat → Bool) (b : Body) : Option Body :=
  if b.buf.length = b.size then
    (writeRequestBody disk b b.toWrite).map fun b => { b with toWrite := nextOrBufs b.bufs, buf := [] }
  else some b

-- The file buf takes the place of the last buf.
def fileBufs (bufs : List Link) : List Link :=
  match bufs with
  | first :: _ :: next => first :: .file :: next
  | _ :: next => .file :: next
  | [] => []

-- The last part goes into the file too.
def saveLast (disk : Nat → Bool) (r : Request) (b : Body) : Option Body :=
  if b.tempFile.isSome || r.inFileOnly then
    (writeRequestBody disk b b.toWrite).map fun b => { b with bufs := fileBufs b.bufs }
  else some b

-- if (rb->bufs->next && (r->request_body_in_file_only || r->request_body_in_single_buf))
def finalBufs (r : Request) (bufs : List Link) : List Link :=
  match bufs with
  | first :: l :: next => if r.inFileOnly || r.inSingleBuf then l :: next else first :: l :: next
  | bufs => bufs

-- What follows the loop of ngx_http_do_read_client_request_body
def finish (disk : Nat → Bool) (r : Request) (b : Body) : Outcome :=
  match saveLast disk r b with
  | none => .status 500
  | some b => .posted { r with requestBody := some { b with bufs := finalBufs r b.bufs } }

-- The bytes that recv is asked for
def wanted (b : Body) : Nat := min (b.size - b.buf.length) b.rest.toNat

def receive (b : Body) (got : Bytes) : Body := { b with buf := b.buf ++ got, rest := b.rest - got.length }

-- ngx_http_do_read_client_request_body with the results recv gives; where no more are listed nothing has arrived.
def doReadClientRequestBody (disk : Nat → Bool) : List Recv → Bytes → Request → Body → Outcome
  | [], input, r, b =>
      match makeRoom disk b with
      | none => .status 500
      | some b => .again r b input
  | recv :: recvs, input, r, b =>
      match makeRoom disk b with
      | none => .status 500
      | some b =>
          match recv with
          | .again ready =>
              if b.rest = 0 then finish disk r b
              else if ready then doReadClientRequestBody disk recvs input r b
              else .again r b input
          | .closed => .status 400
          | .error => .status 400
          | .bytes n ready =>
              let got := input.take (min (n + 1) (wanted b))
              if got.isEmpty then .again r b input
              else
                let input := input.drop got.length
                let r := { r with requestLength := r.requestLength + got.length }
                let b := receive b got
                if b.rest = 0 then finish disk r b
                else if b.buf.length < b.size then
                  if ready then doReadClientRequestBody disk recvs input r b else .again r b input
                else doReadClientRequestBody disk recvs input r b

-- client_body_buffer_size and a quarter of it, as an ssize_t
def bodyLimit (clientBodyBufferSize : Nat) : Int :=
  toInt64 (toInt64 clientBodyBufferSize + toInt64 clientBodyBufferSize / 4)

-- Whether the pre-read part is copied into the buffer of the rest; the copying is disabled for a body that does not fit.
def copies (clientBodyBufferSize : Nat) (r : Request) (preread : Bytes) (rest : Int) : Bool :=
  decide (rest < bodyLimit clientBodyBufferSize) && !preread.isEmpty && r.inSingleBuf

def ownSize (clientBodyBufferSize : Nat) (r : Request) (preread : Bytes) (rest : Int) : Nat :=
  if rest < bodyLimit clientBodyBufferSize then
    rest.toNat + (if r.inSingleBuf then preread.length else 0)
  else clientBodyBufferSize

-- rb->buf of a size behind the pre-read part, or with a copy of it
def placeBody (r : Request) (preread : Bytes) (rest : Int) (copied : Bool) (size : Nat) : Body :=
  let bufs := if copied || preread.isEmpty then [Link.buf] else [.preread, .buf]
  { bufs := bufs
    toWrite := if r.inFileOnly || r.inSingleBuf then bufs else nextOrBufs bufs
    preread := preread
    buf := if copied then preread else []
    size := size
    rest := rest }

-- The buffer of the rest of the body
def ownBody (clientBodyBufferSize : Nat) (r : Request) (preread : Bytes) (rest : Int) : Body :=
  placeBody r preread rest (copies clientBodyBufferSize r preread rest)
    (ownSize clientBodyBufferSize r preread rest)

-- ngx_http_read_client_request_body
def readClientRequestBody (clientBodyBufferSize : Nat) (disk : Nat → Bool) (recvs : List Recv) (input : Bytes)
    (r : Request) : Outcome :=
  if r.requestBody.isSome || r.discardBody then .posted r
  else if !r.expected then .status 500
  else if r.contentLengthN < 0 then .posted { r with requestBody := some {} }
  else if r.contentLengthN = 0 then
    if r.inFileOnly then
      if disk 0 then .posted { r with requestBody := some { tempFile := some [] } } else .status 500
    else .posted { r with requestBody := some {} }
  else
    let preread := r.headerIn.length
    if preread ≠ 0 then
      if (preread : Int) ≥ r.contentLengthN then
        -- the whole request body was pre-read
        let n := r.contentLengthN.toNat
        let b : Body := { bufs := [.buf], buf := r.headerIn.take n, size := preread + r.room }
        let r := { r with headerIn := r.headerIn.drop n, requestLength := r.requestLength + r.contentLengthN }
        if r.inFileOnly then
          match writeRequestBody disk b b.bufs with
          | none => .status 500
          | some b => .posted { r with requestBody := some b }
        else .posted { r with requestBody := some b }
      else
        let rest := r.contentLengthN - preread
        let after := { r with headerIn := [], requestLength := r.requestLength + preread }
        if rest ≤ r.room then
          -- the whole request body may be placed in r->header_in
          let b : Body :=
            { bufs := [.buf], toWrite := [.buf], buf := r.headerIn, size := preread + r.room, rest := rest }
          doReadClientRequestBody disk recvs input after b
        else doReadClientRequestBody disk recvs input after (ownBody clientBodyBufferSize r r.headerIn rest)
    else doReadClientRequestBody disk recvs input r (ownBody clientBodyBufferSize r [] r.contentLengthN)

inductive Event where
  | timedout
  | readable (recvs : List Recv)

-- ngx_http_read_client_request_body_handler at each event until the body is there
def handleEvents (disk : Nat → Bool) : List Event → Bytes → Request → Body → Outcome
  | [], input, r, b => .again r b input
  | .timedout :: _, _, _, _ => .status 408
  | .readable recvs :: events, input, r, b =>
      match doReadClientRequestBody disk recvs input r b with
      | .again r b input => handleEvents disk events input r b
      | outcome => outcome

def serve (clientBodyBufferSize : Nat) (disk : Nat → Bool) (recvs : List Recv) (events : List Event)
    (input : Bytes) (r : Request) : Outcome :=
  match readClientRequestBody clientBodyBufferSize disk recvs input r with
  | .again r b input => handleEvents disk events input r b
  | outcome => outcome

-- The data of r->request_body->bufs
def bodyData (r : Request) : Bytes :=
  match r.requestBody with
  | none => []
  | some b => chainData b b.bufs

end Nginx.RequestBody
