import Nginx.Core.Hash.Find
import Nginx.Core.Printf
import Nginx.Http.Script

-- ngx_http_proxy_module.c: the headers of the configuration, and the request to the upstream server.
namespace Nginx.Proxy

-- ngx_keyval_t
structure Keyval where
  key : Bytes
  value : Bytes
  deriving DecidableEq

def crlf : Bytes := ngxString "\r\n"

-- ngx_http_proxy_headers and ngx_http_proxy_cache_headers
def proxyHeaders : List Keyval :=
  [⟨ngxString "Host", ngxString "$proxy_host"⟩, ⟨ngxString "Connection", ngxString "close"⟩,
    ⟨ngxString "Keep-Alive", []⟩, ⟨ngxString "Expect", []⟩]

def proxyCacheHeaders : List Keyval :=
  proxyHeaders ++ [⟨ngxString "If-Modified-Since", []⟩, ⟨ngxString "If-Unmodified-Since", []⟩,
    ⟨ngxString "If-None-Match", []⟩, ⟨ngxString "If-Match", []⟩, ⟨ngxString "Range", []⟩, ⟨ngxString "If-Range", []⟩]

def internalName : Bytes := ngxString "proxy_internal_body_length"

def contentLength : Keyval := ⟨ngxString "Content-Length", 36 :: internalName⟩

-- A code of headers_set_len or body_set_len, and one of headers_set or body_set. null is the NULL behind some codes.
inductive LengthCode where
  | copy (len : Nat)
  | copyVar (index : Nat)
  | markArgs
  | copyCapture (n : Nat)
  | null
  deriving DecidableEq

inductive ValueCode where
  | code (c : Script.Code)
  | null
  deriving DecidableEq

def lengthOf : Script.Code → LengthCode
  | .copy text => .copy text.length
  | .copyVar index => .copyVar index
  | .startArgs => .markArgs
  | .copyCapture n => .copyCapture n

-- The two arrays that are filled together
structure Streams where
  lengths : List LengthCode
  values : List ValueCode

def Streams.add (s : Streams) (codes : List Script.Code) : Streams :=
  ⟨s.lengths ++ codes.map lengthOf, s.values ++ codes.map .code⟩

def Streams.addNull (s : Streams) : Streams := ⟨s.lengths ++ [.null], s.values ++ [.null]⟩

-- ngx_http_script_compile with sc memzero'd up to its arrays
def compile (conf : Script.Conf) (source : Bytes) : Option (List Script.Code) :=
  (Script.compile conf ⟨[], 0, 0, 0, false, false, false, false⟩ source).map Script.Compile.codes

-- The codes of one header of headers_merged
def addHeader (conf : Script.Conf) (s : Streams) (src : Keyval) : Option Streams :=
  if src.value = [] then some s
  else if src.value.count 36 = 0 then
    some (s.add [.copy (src.key ++ ngxString ": " ++ src.value ++ crlf)]).addNull
  else do
    let s := s.add [.copy (src.key ++ ngxString ": ")]
    let codes ← compile conf src.value
    return ((s.add codes).add [.copy crlf]).addNull

-- ngx_hash_t: the number of buckets, and the names
structure HeadersHash where
  size : Nat
  names : List Hash.Key

-- ngx_http_proxy_loc_conf_t. headersSet stands for headers_set and headers_set_len, bodySet for body_set and
-- body_set_len, proxyLengths for proxy_lengths != NULL and cache for upstream.cache != NULL.
structure LocConf where
  headersSource : Option (List Keyval)
  headersSet : Option Streams
  headersSetHash : Option HeadersHash
  bodySource : Option Bytes
  bodySet : Option Streams
  cache : Bool
  method : Bytes
  proxyLengths : Bool
  location : Bytes
  passRequestHeaders : Bool
  passRequestBody : Bool

-- ngx_strcasecmp of two names == 0
def sameName (one two : Bytes) : Bool := one.map tolower == two.map tolower

-- The loop over the defaults h
def addDefaults : List Keyval → List Keyval → List Keyval
  | [], merged => merged
  | h :: defaults, merged =>
    if merged.any fun src => sameName h.key src.key then addDefaults defaults merged
    else addDefaults defaults (merged ++ [h])

-- headers_merged
def headersMerged (source : List Keyval) (cache body : Bool) : List Keyval :=
  addDefaults (if cache then proxyCacheHeaders else proxyHeaders) source ++ if body then [contentLength] else []

-- An element of headers_names
def hashKeyOf (src : Keyval) : Hash.Key := ⟨src.key, false, Hash.hashKeyLc src.key, 1⟩

-- The part of ngx_http_proxy_merge_loc_conf for the body
def inheritBody (c prev : LocConf) : LocConf :=
  if c.bodySource.isNone then { c with bodySource := prev.bodySource, bodySet := prev.bodySet } else c

def mergeBody (conf : Script.Conf) (c prev : LocConf) : Option LocConf :=
  let c := inheritBody c prev
  match c.bodySource, c.bodySet with
  | some source, none =>
    (compile conf source).map fun codes => { c with bodySet := some ((⟨[], []⟩ : Streams).add codes).addNull }
  | _, _ => some c

def inheritHeaders (c prev : LocConf) : LocConf :=
  if c.headersSource.isNone then
    { c with
      headersSet := prev.headersSet
      headersSetHash := prev.headersSetHash
      headersSource := prev.headersSource }
  else c

-- ngx_http_proxy_merge_headers from the arrays on. tableSize is the number of buckets that ngx_hash_init finds for the
-- names.
def buildHeaders (conf : Script.Conf) (tableSize : List Hash.Key → Option Nat) (c : LocConf) : Option LocConf := do
  let source := c.headersSource.getD []
  let merged := headersMerged source c.cache c.bodySource.isSome
  let streams ← merged.foldlM (addHeader conf) ⟨[], []⟩
  let names := merged.map hashKeyOf
  let size ← tableSize names
  return { c with
    headersSource := some source
    headersSet := some { streams with lengths := streams.lengths ++ [.null] }
    headersSetHash := some ⟨size, names⟩ }

-- ngx_http_proxy_merge_headers
def mergeHeaders (conf : Script.Conf) (tableSize : List Hash.Key → Option Nat) (c prev : LocConf) : Option LocConf :=
  let c := inheritHeaders c prev
  if c.headersSetHash.isSome && c.bodySource.isNone == prev.bodySource.isNone && c.cache == prev.cache then some c
  else buildHeaders conf tableSize c

def mergeLocConf (conf : Script.Conf) (tableSize : List Hash.Key → Option Nat) (c prev : LocConf) : Option LocConf := do
  let c ← mergeBody conf c prev
  mergeHeaders conf tableSize c prev

-- As ngx_http_proxy_create_loc_conf and the directives leave a configuration
structure Fresh (c : LocConf) : Prop where
  headersSet : c.headersSet = none
  headersSetHash : c.headersSetHash = none
  bodySet : c.bodySet = none

-- The configurations of servers and locations. That of http is not merged itself.
inductive Merged (conf : Script.Conf) (tableSize : List Hash.Key → Option Nat) : LocConf → Prop where
  | server {c main merged : LocConf} (hc : Fresh c) (hmain : Fresh main)
      (h : mergeLocConf conf tableSize c main = some merged) : Merged conf tableSize merged
  | location {c prev merged : LocConf} (hc : Fresh c) (hprev : Merged conf tableSize prev)
      (h : mergeLocConf conf tableSize c prev = some merged) : Merged conf tableSize merged

-- An ngx_table_elt_t of r->headers_in, with the lowcase_key of ngx_http_process_request_headers. hash is what
-- ngx_http_parse_header_line has made of the name.
structure Header where
  key : Bytes
  value : Bytes
  lowcaseKey : Bytes
  hash : Nat
  lower : lowcaseKey = key.map tolower

-- A method name and the byte behind it
structure Method where
  name : Bytes
  next : UInt8

-- Of r, its upstream and its ctx: upstreamMethod is u->method, main is r == r->main, ctxUri is ctx->vars.uri, headers
-- are the parts of headers_in.headers one behind the other, and requestBufs is what the bufs of u->request_bufs hold.
structure Request where
  upstreamMethod : Method
  methodName : Method
  uri : Bytes
  args : Bytes
  unparsedUri : Bytes
  quotedUri : Bool
  spaceInUri : Bool
  plusInUri : Bool
  internal : Bool
  validUnparsedUri : Bool
  validLocation : Bool
  main : Bool
  ctxUri : Bytes
  captures : Script.Captures
  headers : List Header
  requestBufs : List Bytes

-- What the variables read as, none for not_found or NULL, as long as the request is made. cached is what r->variables
-- has of $proxy_internal_body_length, and memory tells whether its get handler finds some.
structure Vars where
  value : Nat → Option Bytes
  cached : Option (Option Bytes)
  internalBodyLength : Nat
  memory : Bool

-- ngx_sprintf(v->data, "%uz", ctx->internal_body_length)
def sizeText (n : Nat) : Bytes := (Printf.sprintf 0 (ngxString "%uz") [.word (BitVec.ofNat 64 n)]).getD []

-- ngx_http_proxy_internal_body_length_variable, for a variable that is not cached
def Vars.internal (v : Vars) : Option Bytes :=
  match v.cached with
  | some value => value
  | none => if v.memory then some (sizeText v.internalBodyLength) else none

-- ngx_http_get_indexed_variable
def getVariable (conf : Script.Conf) (v : Vars) (index : Nat) : Bytes × Vars :=
  if conf.variableIndex internalName = some index then (v.internal.getD [], { v with cached := some v.internal })
  else ((v.value index).getD [], v)

-- Two flags of ngx_http_script_engine_t
structure Flags where
  isArgs : Bool
  quote : Bool

def Flags.escapes (f : Flags) (r : Request) : Bool := (f.isArgs || f.quote) && (r.quotedUri || r.plusInUri)

-- lcode(&le)
def lengthCode (conf : Script.Conf) (r : Request) (le : Flags) (v : Vars) : LengthCode → Nat × Flags × Vars
  | .copy len => (len, le, v)
  | .copyVar index =>
    let (value, v) := getVariable conf v index
    (value.length, le, v)
  | .markArgs => (1, { le with isArgs := true }, v)
  | .copyCapture n =>
    (r.captures.len n + if le.escapes r then 2 * escapeCount .args (r.captures.text n) else 0, le, v)
  | .null => (0, le, v)

-- while (*(uintptr_t *) le.ip) len += lcode(&le), and where le.ip stands then
def runLengths (conf : Script.Conf) (r : Request) : List LengthCode → Flags → Vars →
    Nat × List LengthCode × Flags × Vars
  | [], le, v => (0, [], le, v)
  | .null :: ip, le, v => (0, .null :: ip, le, v)
  | c :: ip, le, v =>
    let (len, le, v) := lengthCode conf r le v c
    let (rest, ip, le, v) := runLengths conf r ip le v
    (len + rest, ip, le, v)

-- The two loops that count the headers: inside is false where the outer one tests le.ip.
def sumLengths (conf : Script.Conf) (r : Request) : Bool → List LengthCode → Flags → Vars → Nat × Flags × Vars
  | _, [], le, v => (0, le, v)
  | inside, .null :: ip, le, v => if inside then sumLengths conf r false ip le v else (0, le, v)
  | _, c :: ip, le, v =>
    let (len, le, v) := lengthCode conf r le v c
    let (rest, le, v) := sumLengths conf r true ip le v
    (len + rest, le, v)

-- The engine e: pos holds what stands before e.pos.
structure Engine where
  flags : Flags
  skip : Bool
  pos : Bytes

-- code(&e)
def valueCode (conf : Script.Conf) (r : Request) (e : Engine) (v : Vars) : Script.Code → Engine × Vars
  | .copy text => (if e.skip then e else { e with pos := e.pos ++ text }, v)
  | .copyVar index =>
    if e.skip then (e, v)
    else
      let (value, v) := getVariable conf v index
      ({ e with pos := e.pos ++ value }, v)
  | .startArgs => ({ e with flags := { e.flags with isArgs := true } }, v)
  | .copyCapture n =>
    let text := r.captures.text n
    ({ e with pos := e.pos ++ if e.flags.escapes r then escapeUri .args text else text }, v)

-- while (*(uintptr_t *) e.ip) code(&e), and where e.ip stands then
def runValues (conf : Script.Conf) (r : Request) : List ValueCode → Engine → Vars → List ValueCode × Engine × Vars
  | .code c :: ip, e, v =>
    let (e, v) := valueCode conf r e v c
    runValues conf r ip e v
  | ip, e, v => (ip, e, v)

-- e.skip for the header whose name le has just passed
def skipHeader (conf : Script.Conf) (r : Request) (ip : List LengthCode) (le : Flags) (v : Vars) :
    Bool × List LengthCode × Flags × Vars :=
  match ip with
  | [] => (false, ip, le, v)
  | .null :: _ => (false, ip, le, v)
  | _ =>
    let (len, ip, le, v) := runLengths conf r ip le v
    (len == 2, ip, le, v)

-- The loop that writes the headers. Each turn takes a code at least, so their number is enough fuel.
def writeHeaders (conf : Script.Conf) (r : Request) : Nat → List LengthCode → List ValueCode → Flags → Engine → Vars →
    Engine × Flags × Vars
  | fuel + 1, c :: ip, values, le, e, v =>
    if c = .null then (e, le, v)
    else
      let (_, le, v) := lengthCode conf r le v c
      let (skip, ip, le, v) := skipHeader conf r ip le v
      let (values, e, v) := runValues conf r values { e with skip := skip } v
      writeHeaders conf r fuel ip.tail values.tail le e v
  | _, _, _, le, e, v => (e, le, v)

-- ngx_hash_find finds a name in the bucket of the hash.
def HeadersHash.find (hash : HeadersHash) (header : Header) : Bool :=
  Hash.stored hash.size (header.hash % hash.size) header.lowcaseKey hash.names != 0

def headerLine (header : Header) : Bytes := header.key ++ ngxString ": " ++ header.value ++ crlf

-- The headers of the client that go on
def passedHeaders (c : LocConf) (hash : HeadersHash) (r : Request) : List Header :=
  if c.passRequestHeaders then r.headers.filter fun header => !hash.find header else []

def requestMethod (c : LocConf) (r : Request) : Bytes :=
  if r.upstreamMethod.name ≠ [] then r.upstreamMethod.name ++ [r.upstreamMethod.next]
  else if c.method ≠ [] then c.method
  else r.methodName.name ++ [r.methodName.next]

def proxyVersion : Bytes := ngxString " HTTP/1.0\r\n"

-- unparsed_uri of the source
def Request.unparsed (r : Request) : Bool := r.ctxUri.isEmpty && r.validUnparsedUri && r.main

def locLen (c : LocConf) (r : Request) : Nat :=
  if r.validLocation = true ∧ r.ctxUri ≠ [] then c.location.length else 0

def escapeLen (c : LocConf) (r : Request) : Nat :=
  if r.quotedUri || r.spaceInUri || r.internal then 2 * escapeCount .uri (r.uri.drop (locLen c r)) else 0

-- r->uri.len - loc_len is to be a length in the last case; none is a negative one.
def uriLen (c : LocConf) (r : Request) : Option Nat :=
  if c.proxyLengths then some r.ctxUri.length
  else if r.unparsed then some r.unparsedUri.length
  else if r.uri.length < locLen c r then none
  else some (r.ctxUri.length + (r.uri.length - locLen c r) + escapeLen c r + 1 + r.args.length)

def writeUri (c : LocConf) (r : Request) : Bytes :=
  if c.proxyLengths then r.ctxUri
  else if r.unparsed then r.unparsedUri
  else
    (if r.validLocation then r.ctxUri else []) ++
      (if escapeLen c r ≠ 0 then escapeUri .uri (r.uri.drop (locLen c r)) else r.uri.drop (locLen c r)) ++
      if 0 < r.args.length then 63 :: r.args else []

-- The pool of the request: no buffer has 2^63 bytes.
structure Pool where
  tempBuf : Nat → Bool
  link : Bool
  bodyBufs : Bool
  fits : ∀ n, tempBuf n = true → n < 2 ^ 63

-- What is left behind with NGX_OK: the size of the buffer b, what it holds, u->uri, the bufs behind it in
-- u->request_bufs, and the variables.
structure Made where
  allocated : Nat
  bytes : Bytes
  uri : Bytes
  behind : List Bytes
  vars : Vars

-- error is NGX_ERROR, and fault a read outside of a string.
inductive Result where
  | made (m : Made)
  | error
  | fault

def Result.made? : Result → Option Made
  | .made m => some m
  | _ => none

-- body_len with what it leaves
def countBody (conf : Script.Conf) (c : LocConf) (r : Request) (le : Flags) (v : Vars) : Nat × Flags × Vars :=
  match c.bodySet with
  | some body =>
    let (bodyLen, _, le, v) := runLengths conf r body.lengths le v
    (bodyLen, le, { v with internalBodyLength := bodyLen })
  | none => (0, le, v)

-- The codes of body_set
def writeBody (conf : Script.Conf) (c : LocConf) (r : Request) (e : Engine) (v : Vars) : Engine × Vars :=
  match c.bodySet with
  | some body => (runValues conf r body.values e v).2
  | none => (e, v)

-- ngx_http_proxy_create_request. The flags of le are not set there but for flushed, and start as garbage. The values
-- that ngx_http_script_flush_no_cacheable_variables drops come back the same.
def createRequest (conf : Script.Conf) (c : LocConf) (garbage : Flags) (pool : Pool) (r : Request) (v : Vars) : Result :=
  match uriLen c r, c.headersSet, c.headersSetHash with
  | some uriLen, some headersSet, some hash =>
    if uriLen = 0 then .error
    else
      let (bodyLen, le, v) := countBody conf c r garbage v
      let (headersLen, le, v) := sumLengths conf r false headersSet.lengths le v
      let len := (requestMethod c r).length + proxyVersion.length + crlf.length + uriLen + bodyLen + headersLen +
        ((passedHeaders c hash r).map fun header => (headerLine header).length).sum
      if !pool.tempBuf len || !pool.link then .error
      else
        let e : Engine := ⟨⟨false, false⟩, false, requestMethod c r ++ writeUri c r ++ proxyVersion⟩
        let (e, _, v) := writeHeaders conf r headersSet.lengths.length headersSet.lengths headersSet.values le e v
        let e := { e with pos := e.pos ++ (passedHeaders c hash r).flatMap headerLine ++ crlf }
        let (e, v) := writeBody conf c r e v
        if c.bodySet.isNone && c.passRequestBody then
          if pool.bodyBufs || r.requestBufs.isEmpty then .made ⟨len, e.pos, writeUri c r, r.requestBufs, v⟩ else .error
        else .made ⟨len, e.pos, writeUri c r, [], v⟩
  | _, _, _ => .fault

end Nginx.Proxy
