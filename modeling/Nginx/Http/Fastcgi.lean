import Nginx.Core.Bytes
import Nginx.Core.Hash

namespace Nginx.Fastcgi

-- ngx_http_fastcgi_state_e
inductive State where
  | version
  | type
  | requestIdHi
  | requestIdLo
  | contentLengthHi
  | contentLengthLo
  | paddingLength
  | reserved
  | data
  | padding
  deriving DecidableEq, Repr

-- f->state < ngx_http_fastcgi_st_data
def State.inHeader : State → Bool
  | .data | .padding => false
  | _ => true

-- NGX_HTTP_FASTCGI_END_REQUEST, NGX_HTTP_FASTCGI_STDOUT and NGX_HTTP_FASTCGI_STDERR
def endRequest : UInt8 := 3
def stdout : UInt8 := 6
def stderr : UInt8 := 7

-- The record in ngx_http_fastcgi_ctx_t; the bytes from pos to last are passed beside it.
structure Ctx where
  state : State
  type : UInt8
  length : Nat
  padding : Nat
  deriving DecidableEq, Repr

-- What ngx_http_fastcgi_process_record returns; pos is moved with NGX_OK only.
inductive Processed where
  | again (f : Ctx)
  | error (f : Ctx)
  | ok (f : Ctx) (rest : Bytes)
  deriving DecidableEq, Repr

-- ngx_http_fastcgi_process_record, with its local state
def processRecord (f : Ctx) : State → Bytes → Processed
  | state, [] => .again { f with state := state }
  | state, ch :: rest =>
      match state with
      | .version => if ch ≠ 1 then .error f else processRecord f .type rest
      | .type =>
          if ch = stdout ∨ ch = stderr ∨ ch = endRequest then processRecord { f with type := ch } .requestIdHi rest
          else .error f
      | .requestIdHi => if ch ≠ 0 then .error f else processRecord f .requestIdLo rest
      | .requestIdLo => if ch ≠ 1 then .error f else processRecord f .contentLengthHi rest
      | .contentLengthHi => processRecord { f with length := ch.toNat <<< 8 } .contentLengthLo rest
      | .contentLengthLo => processRecord { f with length := f.length ||| ch.toNat } .paddingLength rest
      | .paddingLength => processRecord { f with padding := ch.toNat } .reserved rest
      | .reserved => .ok { f with state := .data } rest
      | .data | .padding => processRecord f state rest

-- The parts of ngx_event_pipe_t and of its pool that the filter uses: the bytes of the buffers in p->in, the lengths
-- of p->free and of the pool's chain, and the answers of the pool to come (an empty list gives memory each time).
structure Pipe where
  input : List Bytes
  upstreamDone : Bool
  free : Nat
  chain : Nat
  answers : List Bool
  deriving DecidableEq, Repr

def palloc (p : Pipe) : Option Pipe :=
  match p.answers with
  | [] => some p
  | true :: answers => some { p with answers := answers }
  | false :: _ => none

-- A buffer of p->free, whose link goes to the pool, or ngx_alloc_buf
def allocBuf (p : Pipe) : Option Pipe :=
  match p.free with
  | n + 1 => some { p with free := n, chain := p.chain + 1 }
  | 0 => palloc p

-- ngx_alloc_chain_link
def allocChainLink (p : Pipe) : Option Pipe :=
  match p.chain with
  | n + 1 => some { p with chain := n }
  | 0 => palloc p

-- ngx_event_pipe_add_free_buf
def addFreeBuf (p : Pipe) : Option Pipe := allocChainLink p

-- The end of one turn of the loop: continue, break, or return NGX_ERROR; b tells that b is not NULL.
inductive Turn where
  | next (f : Ctx) (rest : Bytes) (p : Pipe) (b : Bool)
  | done (f : Ctx) (p : Pipe) (b : Bool)
  | error

-- The padding
def skipPadding (f : Ctx) (rest : Bytes) (p : Pipe) (b : Bool) : Turn :=
  if f.padding < rest.length then .next { f with state := .version } (rest.drop f.padding) p b
  else if f.padding = rest.length then .done { f with state := .version } p b
  else .done { f with padding := f.padding - rest.length } p b

-- f->type == NGX_HTTP_FASTCGI_STDERR
def readStderr (f : Ctx) (rest : Bytes) (p : Pipe) (b : Bool) : Turn :=
  if f.length ≠ 0 then
    if rest = [] then .done f p b
    else if f.length ≤ rest.length then
      let rest' := rest.drop f.length
      let f := { f with length := 0, state := .padding }
      if rest' = [] then .done f p b else .next f rest' p b
    else .done { f with length := f.length - rest.length } p b
  else .next { f with state := .version } rest p b

-- f->type == NGX_HTTP_FASTCGI_STDOUT
def readStdout (f : Ctx) (rest : Bytes) (p : Pipe) (b : Bool) : Turn :=
  if rest = [] then .done f p b
  else
    match (allocBuf p).bind allocChainLink with
    | none => .error
    | some p =>
        let p := { p with input := p.input ++ [rest.take f.length] }
        let next := if f.padding ≠ 0 then { f with state := .padding } else { f with state := .version }
        if f.length < rest.length then .next next (rest.drop f.length) p true
        else if f.length = rest.length then .done next p true
        else .done { f with length := f.length - rest.length } p true

def readData (f : Ctx) (rest : Bytes) (p : Pipe) (b : Bool) : Turn :=
  if f.state = .padding then skipPadding f rest p b
  else if f.type = stderr then readStderr f rest p b
  else readStdout f rest p b

def turn (f : Ctx) (rest : Bytes) (p : Pipe) (b : Bool) : Turn :=
  if f.state.inHeader then
    match processRecord f f.state rest with
    | .again f => .done f p b
    | .error _ => .error
    | .ok f rest =>
        if f.type = stdout ∧ f.length = 0 then
          .next { f with state := .version } rest { p with upstreamDone := true } b
        else if f.type = endRequest then .done { f with state := .version } { p with upstreamDone := true } b
        else readData f rest p b
  else readData f rest p b

inductive Outcome where
  | error
  | ok (f : Ctx) (p : Pipe)

-- The loop, and what is behind it; none is a lack of fuel.
def loop : Nat → Ctx → Bytes → Pipe → Bool → Option Outcome
  | 0, _, _, _, _ => none
  | fuel + 1, f, rest, p, b =>
      match turn f rest p b with
      | .next f rest p b => loop fuel f rest p b
      | .done f p true => some (.ok f p)
      | .done f p false =>
          match addFreeBuf p with
          | none => some .error
          | some p => some (.ok f p)
      | .error => some .error

-- ngx_http_fastcgi_input_filter
def inputFilter (f : Ctx) (buf : Bytes) (p : Pipe) : Option Outcome :=
  if buf = [] then some (.ok f p) else loop (3 * buf.length + 3) f buf p false

-- The raw buffers one by one, up to the first NGX_ERROR
def inputFilters (f : Ctx) : List Bytes → Pipe → Option Outcome
  | [], p => some (.ok f p)
  | buf :: bufs, p =>
      match inputFilter f buf p with
      | none => none
      | some .error => some .error
      | some (.ok f p) => inputFilters f bufs p

-- The types of the records that are sent
def beginRequest : UInt8 := 1
def params : UInt8 := 4
def stdin : UInt8 := 5

-- A parameter: its name, and what each code of its value writes. A length code returns the length of that.
structure Param where
  key : Bytes
  codes : List Bytes
  deriving DecidableEq, Repr

-- ngx_table_elt_t of r->headers_in.headers
structure Header where
  key : Bytes
  value : Bytes
  deriving DecidableEq, Repr

-- A buffer of r->upstream->request_bufs: what is from pos to last, or from file_pos to file_last.
structure Buf where
  inFile : Bool
  bytes : Bytes
  deriving DecidableEq, Repr

-- headersHash tells whether ngx_hash_find finds a key in headers_hash.
structure LocConf where
  params : List Param
  passRequestHeaders : Bool
  passRequestBody : Bool
  headerParams : Nat
  headersHash : Nat → Bytes → Bool

-- A buffer of the chain that is sent: one that the function allocates with a size, or a part of the body.
inductive Out where
  | temp (size : Nat) (bytes : Bytes)
  | body (buf : Buf)
  deriving DecidableEq, Repr

def Out.bytes : Out → Bytes
  | .temp _ bytes => bytes
  | .body buf => buf.bytes

-- The answers of the pool to come; an empty list gives memory each time.
def ask : List Bool → Option (List Bool)
  | [] => some []
  | true :: answers => some answers
  | false :: _ => none

def Param.valLen (p : Param) : Nat := (p.codes.map List.length).sum

-- The length pass over the parameters
def countParams : List Param → Nat → Nat
  | [], len => len
  | p :: ps, len => countParams ps (len + (1 + p.key.length + (if p.valLen > 127 then 4 else 1) + p.valLen))

def lowcase (ch : UInt8) : UInt8 :=
  if 65 ≤ ch ∧ ch ≤ 90 then ch ||| 0x20 else if ch = 45 then 95 else ch

def upcase (ch : UInt8) : UInt8 :=
  if 97 ≤ ch ∧ ch ≤ 122 then ch &&& ~~~0x20 else if ch = 45 then 95 else ch

def isIgnored (conf : LocConf) (header : Header) : Bool :=
  let lowcaseKey := header.key.map lowcase
  conf.headersHash (lowcaseKey.foldl Hash.hash 0) lowcaseKey

-- The length pass over the headers from i on, with the size of lowcase_key and the places of the ignored headers
def countHeaders (conf : LocConf) : List Header → Nat → Nat → Nat → List Nat → List Bool →
    Option (Nat × List Nat × List Bool)
  | [], _, _, len, ignored, answers => some (len, ignored, answers)
  | header :: headers, i, allocated, len, ignored, answers =>
      let n := 5 + header.key.length
      let len' := len + ((if n > 127 then 4 else 1) + (if header.value.length > 127 then 4 else 1) + n + header.value.length)
      if conf.headerParams ≠ 0 then
        match if allocated < header.key.length then ask answers else some answers with
        | none => none
        | some answers =>
            let allocated := if allocated < header.key.length then header.key.length + 16 else allocated
            if isIgnored conf header then countHeaders conf headers (i + 1) allocated len (ignored ++ [i]) answers
            else countHeaders conf headers (i + 1) allocated len' ignored answers
      else countHeaders conf headers (i + 1) allocated len' ignored answers

-- padding = 8 - len % 8
def paddingOf (len : Nat) : Nat := if 8 - len % 8 = 8 then 0 else 8 - len % 8

-- ngx_http_fastcgi_header_t
def recordHeader (type : UInt8) (len padding : Nat) : Bytes :=
  [1, type, 0, 1, UInt8.ofNat ((len >>> 8) &&& 0xff), UInt8.ofNat (len &&& 0xff), UInt8.ofNat padding, 0]

-- h0 and br in ngx_http_fastcgi_request_start
def requestStart : Bytes := recordHeader beginRequest 8 0 ++ [0, 1, 0, 0, 0, 0, 0, 0]

def writeLen (n : Nat) : Bytes :=
  if n > 127 then
    [UInt8.ofNat (((n >>> 24) &&& 0x7f) ||| 0x80), UInt8.ofNat ((n >>> 16) &&& 0xff),
      UInt8.ofNat ((n >>> 8) &&& 0xff), UInt8.ofNat (n &&& 0xff)]
  else [UInt8.ofNat n]

-- The length of the name is written as one byte.
def writeParams : List Param → Bytes
  | [] => []
  | p :: ps => UInt8.ofNat p.key.length :: (writeLen p.valLen ++ (p.key ++ (p.codes.flatten ++ writeParams ps)))

def http : Bytes := ngxString "HTTP_"

def writeHeaders (ignored : List Nat) : List Header → Nat → Bytes
  | [], _ => []
  | header :: headers, i =>
      if i ∈ ignored then writeHeaders ignored headers (i + 1)
      else
        writeLen (5 + header.key.length) ++ (writeLen header.value.length ++
          (http ++ (header.key.map upcase ++ (header.value ++ writeHeaders ignored headers (i + 1)))))

-- The chain so far, and the last buffer of it: its size, and what is in it in front of the header that h points to
structure Sending where
  sent : List Out
  size : Nat
  bytes : Bytes
  answers : List Bool

-- A header for h
def Sending.put (s : Sending) (header : Bytes) : List Out := s.sent ++ [.temp s.size (s.bytes ++ header)]

-- One turn of the loop over a buffer of the body
def Sending.add (s : Sending) (buf : Buf) : Option Sending := do
  let answers ← ask s.answers
  let len := buf.bytes.length
  let padding := paddingOf len
  let answers ← ask answers
  let answers ← ask answers
  let answers ← ask answers
  return ⟨s.put (recordHeader stdin len padding) ++ [.body buf], 8 + padding, List.replicate padding 0, answers⟩

-- The loop over a buffer of the body, from its place rest on
def sendBuf (inFile : Bool) : Nat → Bytes → Sending → Option Sending
  | 0, _, _ => none
  | fuel + 1, rest, s => do
      let s ← s.add ⟨inFile, rest.take (32 * 1024)⟩
      if rest.length ≤ 32 * 1024 then return s else sendBuf inFile fuel (rest.drop (32 * 1024)) s

def sendBody : List Buf → Sending → Option Sending
  | [], s => some s
  | buf :: bufs, s => do
      let s ← sendBuf buf.inFile (buf.bytes.length / (32 * 1024) + 1) buf.bytes s
      sendBody bufs s

-- The length pass
def countRequest (conf : LocConf) (headers : List Header) (answers : List Bool) : Option (Nat × List Nat × List Bool) := do
  let len := countParams conf.params 0
  if conf.passRequestHeaders then
    let answers ← if conf.headerParams ≠ 0 then ask answers else some answers
    countHeaders conf headers 0 0 len [] answers
  else return (len, [], answers)

-- ngx_http_fastcgi_create_request: the chain in r->upstream->request_bufs; none is NGX_ERROR.
def createRequest (conf : LocConf) (headers : List Header) (body : List Buf) (answers : List Bool) :
    Option (List Out) := do
  let (len, ignored, answers) ← countRequest conf headers answers
  if len > 65535 then none
  else
    let padding := paddingOf len
    let size := 8 + 8 + 8 + len + padding + 8 + 8
    let answers ← ask answers
    let answers ← ask answers
    let bytes := requestStart ++ (recordHeader params len padding ++ (writeParams conf.params ++
      ((if conf.passRequestHeaders then writeHeaders ignored headers 0 else []) ++
        (List.replicate padding 0 ++ recordHeader params 0 0))))
    let s ← if conf.passRequestBody then sendBody body ⟨[], size, bytes, answers⟩ else some ⟨[], size, bytes, answers⟩
    return s.put (recordHeader stdin 0 0)

end Nginx.Fastcgi
