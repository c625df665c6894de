import Nginx.Core.Resolver
import Nginx.Core.Crc32
import Nginx.Core.Memcmp

namespace Nginx.Core.Resolver

open ByteMemory

-- A requester that waits for a node.
abbrev Ctx := Nat

-- What is read of a ngx_resolver_node_t here: key is the one of its tree node, and query holds
-- the two octets of the ident in front of a query, none when the pointer is NULL.
structure Node where
  key : Nat
  name : Bytes
  query : Option (UInt8 × UInt8)
  waiting : List Ctx

def Node.ident (rn : Node) : Nat :=
  match rn.query with
  | some (hi, lo) => hi.toNat * 256 + lo.toNat
  | none => 0

-- The resolver: its nodes by address, its trees and the resend queues with their nodes in order.
-- A node gets its query before it is put in a resend queue. sentinelIdent is what the memory at
-- the sentinel of the name queue gives when it is taken for a node.
structure Resolver where
  node : Nat → Node
  nameRbtree : BinaryTree Nat
  addrRbtree : BinaryTree Nat
  nameResendQueue : List Nat
  addrResendQueue : List Nat
  queried : ∀ rn ∈ nameResendQueue ++ addrResendQueue, (node rn).query ≠ none
  sentinelIdent : Nat
  time : Int
  valid : Int
  expire : Int

-- ngx_resolver_lookup_name
def lookupName (r : Resolver) (name : Bytes) (hash : Nat) : BinaryTree Nat → Option Nat
  | .nil => none
  | .node rn left right =>
      if hash < (r.node rn).key then lookupName r name hash left
      else if (r.node rn).key < hash then lookupName r name hash right
      else
        let rc := memn2cmp name (r.node rn).name name.length (r.node rn).name.length
        if rc = 0 then some rn
        else if rc < 0 then lookupName r name hash left
        else lookupName r name hash right

-- ngx_resolver_lookup_addr
def lookupAddr (r : Resolver) (addr : Nat) : BinaryTree Nat → Option Nat
  | .nil => none
  | .node rn left right =>
      if addr < (r.node rn).key then lookupAddr r addr left
      else if (r.node rn).key < addr then lookupAddr r addr right
      else some rn

-- What is taken for a node when its query is read.
inductive Element | node (rn : Nat) | nameSentinel
  deriving DecidableEq

-- What the handling of a response does, in order. Addresses are in network order.
inductive Call
  | log (text : Bytes)
  | queueRemove (rn : Nat)
  | rbtreeDelete (rn : Nat)
  | freeNode (rn : Nat)
  | setWaiting (rn : Nat)
  | setAddrs (rn : Nat) (addrs : List Bytes)
  | setNaddrs (rn naddrs : Nat)
  | setName (rn : Nat) (name : Bytes)
  | setCname (rn : Nat) (name : Bytes)
  | setTimes (rn : Nat) (valid expire : Int)
  | expireInsert (rn : Nat)
  | handler (rn : Nat) (ctx : Ctx) (state : Nat) (name : Option Bytes) (addrs : List Bytes)
  | resolveName (ctx : Ctx) (name : Bytes)
  deriving DecidableEq

-- One answer record: where its name and its ngx_resolver_an_t start.
structure Record where
  start : Nat
  header : Nat
  qtype : Nat
  len : Nat
  deriving DecidableEq, Repr

def Record.data (r : Record) : Nat := r.header + 10

def Record.read (buf : Memory) (start header : Nat) : Record :=
  ⟨start, header, (buf header).toNat * 256 + (buf (header + 1)).toNat,
    (buf (header + 8)).toNat * 256 + (buf (header + 9)).toNat⟩

def headerReads (header : Nat) : List Nat := [header, header + 1, header + 8, header + 9]

def addrReads (r : Record) : List Nat := [r.data, r.data + 1, r.data + 2, r.data + 3]

inductive Skipped | pointer (i : Nat) | root (i : Nat) | short
  deriving DecidableEq, Repr

-- The loop over a name in the first pass. With last - i turns the loop is at last or beyond.
def skipName (buf : Memory) (last : Nat) : Nat → Nat → Skipped × List Nat
  | 0, _ => (.short, [])
  | turns + 1, i =>
      if i < last then
        if (buf i).toNat &&& 0xc0 ≠ 0 then (.pointer (i + 2), [i])
        else if buf i = 0 then (.root (i + 1), [i])
        else
          let (s, reads) := skipName buf last turns (i + 1 + (buf i).toNat)
          (s, i :: reads)
      else (.short, [])

inductive Parsed | record (r : Record) | short | invalid
  deriving DecidableEq, Repr

-- The first pass from the name of a record to its type and length.
def parseRecord (buf : Memory) (last i : Nat) : Parsed × List Nat :=
  let found (j : Nat) (reads : List Nat) : Parsed × List Nat :=
    if last ≤ j + 10 then (.short, reads) else (.record (.read buf i j), reads ++ headerReads j)
  match skipName buf last (last - i) i with
  | (.short, reads) => (.short, reads)
  | (.pointer j, reads) => found j reads
  | (.root j, reads) => if j - i < 2 then (.invalid, reads) else found j reads

-- What the first pass knows of the records.
structure Counted where
  naddrs : Nat
  addr : Bytes
  cname : Option Nat
  qtype : Nat
  deriving DecidableEq, Repr

inductive PassEnd | counted (c : Counted) | short | invalid
  deriving DecidableEq, Repr

-- The first pass, with the records it sees.
def firstPass (buf : Memory) (last : Nat) : Nat → Nat → Counted → PassEnd × List Record × List Nat
  | 0, _, c => (.counted c, [], [])
  | nan + 1, i, c =>
      match parseRecord buf last i with
      | (.short, reads) => (.short, [], reads)
      | (.invalid, reads) => (.invalid, [], reads)
      | (.record an, reads) =>
          let go (i : Nat) (c : Counted) (more : List Nat) : PassEnd × List Record × List Nat :=
            let (e, ans, rest) := firstPass buf last nan i { c with qtype := an.qtype }
            (e, an :: ans, reads ++ more ++ rest)
          if an.qtype = 1 then
            if last < an.data + an.len then (.short, [an], reads)
            else go (an.data + an.len) { c with naddrs := c.naddrs + 1, addr := load buf an.data 4 } (addrReads an)
          else if an.qtype = 5 then go (an.data + an.len) { c with cname := some an.data } []
          else if an.qtype = 39 then go (an.data + an.len) c []
          else go an.header c []

-- The loop over a name in the second pass. It has no bound in the source.
def passName (buf : Memory) : Nat → Nat → Option (Nat × List Nat)
  | 0, _ => none
  | fuel + 1, i =>
      if (buf i).toNat &&& 0xc0 ≠ 0 then some (i + 2, [i])
      else if buf i = 0 then some (i + 1, [i])
      else do
        let (j, reads) ← passName buf fuel (i + 1 + (buf i).toNat)
        some (j, i :: reads)

structure Stored where
  addrs : List Bytes
  records : List Record
  reads : List Nat
  deriving DecidableEq, Repr

-- The second pass, when n of naddrs addresses are stored.
def secondPass (fuel : Nat) (buf : Memory) (naddrs : Nat) : Nat → Nat → Nat → Option Stored
  | 0, _, _ => some ⟨[], [], []⟩
  | nan + 1, i, n => do
      let (j, reads) ← passName buf fuel i
      let an := Record.read buf i j
      let reads := reads ++ headerReads j
      if an.qtype = 1 then
        if n + 1 = naddrs then some ⟨[load buf an.data 4], [an], reads ++ addrReads an⟩
        else do
          let s ← secondPass fuel buf naddrs nan (an.data + an.len) (n + 1)
          some ⟨load buf an.data 4 :: s.addrs, an :: s.records, reads ++ addrReads an ++ s.reads⟩
      else do
        let s ← secondPass fuel buf naddrs nan (an.data + an.len) n
        some ⟨s.addrs, an :: s.records, reads ++ s.reads⟩

-- Which of the allocations of ngx_resolver_process_a and ngx_resolver_process_ptr succeed.
structure Allocs where
  name : Bool
  addrs : Bool
  dup : Bool
  answer : Bool

-- What happens in the handling of a response, and in the scan of its answers; second is none
-- when there is no second pass.
structure Reply where
  treated : List Element
  calls : List Call

structure Scan where
  reads : List Nat
  first : List Record
  naddrs : Nat
  second : Option Stored
  reply : Reply

-- The answer to all that wait for a node that does not exist, or that the server does not know.
def answerCode (r : Resolver) (rn code : Nat) : List Call :=
  [.setWaiting rn, .queueRemove rn, .rbtreeDelete rn, .freeNode rn] ++
    (r.node rn).waiting.map fun ctx => .handler rn ctx code none []

-- The part of ngx_resolver_process_a behind the scan: the calls for naddrs addresses.
def answerAddrs (r : Resolver) (rn naddrs : Nat) (addrs : List Bytes) : List Call :=
  [.setAddrs rn addrs, .setNaddrs rn (naddrs % 2 ^ 16), .queueRemove rn, .setTimes rn (r.time + r.valid) (r.time + r.expire),
    .expireInsert rn, .setWaiting rn] ++ (r.node rn).waiting.map fun ctx => .handler rn ctx 0 none addrs

-- The CNAME branch: only the first of those that wait goes on with the name.
def answerCname (r : Resolver) (rn : Nat) (name : Bytes) : List Call :=
  [.queueRemove rn, .setCname rn name, .setTimes rn (r.time + r.valid) (r.time + r.expire), .expireInsert rn,
    .setWaiting rn] ++
    match (r.node rn).waiting with
    | [] => []
    | ctx :: _ => [.resolveName ctx name]

-- The two passes of ngx_resolver_process_a, after the offsets that were read before them.
def scanAnswers (fuel : Nat) (r : Resolver) (m : Allocs) (buf : Memory) (last nan ans rn : Nat) (seen : List Nat) :
    Option Scan := do
  match firstPass buf last nan ans ⟨0, [], none, 0⟩ with
  | (.short, first, reads) =>
      return ⟨seen ++ reads, first, 0, none, [.node rn], [.log (ngxString "short dns response")]⟩
  | (.invalid, first, reads) =>
      return ⟨seen ++ reads, first, 0, none, [.node rn], [.log (ngxString "invalid name in dns response")]⟩
  | (.counted s, first, reads) =>
      let reads := seen ++ reads
      if s.naddrs = 1 then return ⟨reads, first, 1, none, [.node rn], answerAddrs r rn 1 [s.addr]⟩
      else if s.naddrs ≠ 0 then
        if !m.addrs then return ⟨reads, first, s.naddrs, none, [.node rn], []⟩
        else
          let second ← secondPass fuel buf s.naddrs nan ans 0
          let calls := if !m.dup then [.setAddrs rn second.addrs] else answerAddrs r rn s.naddrs second.addrs
          return ⟨reads ++ second.reads, first, s.naddrs, some second, [.node rn], calls⟩
      else
        match s.cname with
        | some cname => do
            let c ← copy fuel buf cname last true m.answer
            let calls := if c.rc ≠ .ok then [] else answerCname r rn (c.name.getD [])
            return ⟨reads ++ c.reads, first, 0, none, [.node rn], calls⟩
        | none =>
            return ⟨reads, first, 0, none, [.node rn],
              [.log (ngxString "no A or CNAME types in DNS responses, unknown query type: %ui")]⟩

-- ngx_resolver_process_a
def processA (fuel : Nat) (r : Resolver) (m : Allocs) (buf : Memory) (last ident code nan ans : Nat) :
    Option Scan := do
  let c ← copy fuel buf 12 last true m.name
  if c.rc ≠ .ok then return ⟨c.reads, [], 0, none, [], []⟩
  let name := c.name.getD []
  match lookupName r name (crc32Short name).toNat r.nameRbtree with
  | none => return ⟨c.reads, [], 0, none, [], [.log (ngxString "unexpected response for %V")]⟩
  | some rn =>
    if (r.node rn).query = none then
      return ⟨c.reads, [], 0, none, [], [.log (ngxString "unexpected response for %V")]⟩
    if ident ≠ (r.node rn).ident then
      return ⟨c.reads, [], 0, none, [.node rn], [.log (ngxString "wrong ident %ui response for %V, expect %ui")]⟩
    let code := if code = 0 ∧ nan = 0 then 3 else code
    if code ≠ 0 then return ⟨c.reads, [], 0, none, [.node rn], answerCode r rn code⟩
    scanAnswers fuel r m buf last nan ans rn c.reads

-- ngx_atoi, with -1 for NGX_ERROR.
def atoiLoop : Bytes → Int → Int
  | [], value => if value < 0 then -1 else value
  | c :: line, value => if c < 48 ∨ 57 < c then -1 else atoiLoop line (toInt64 (value * 10 + (c.toNat - 48)))

def atoi (line : Bytes) : Int := if line = [] then -1 else atoiLoop line 0

-- The address in front of in-addr.arpa, from a number of labels, and the offset behind them.
def ptrAddr (buf : Memory) : Nat → Nat → Nat → Nat → Option (Nat × Nat)
  | 0, _, i, addr => some (addr, i)
  | labels + 1, mask, i, addr =>
      let len := (buf i).toNat
      let digit := atoi (load buf (i + 1) len)
      if digit = -1 ∨ 255 < digit then none
      else ptrAddr buf labels (mask + 8) (i + 1 + len) ((addr + digit.toNat <<< mask) % 2 ^ 32)

-- "\7in-addr\4arpa" with its NUL.
def inAddrArpa : Bytes := 7 :: ngxString "in-addr" ++ 4 :: ngxString "arpa" ++ [0]

-- ngx_resolver_process_ptr
def processPtr (fuel : Nat) (r : Resolver) (m : Allocs) (buf : Memory) (n ident code nan : Nat) : Option Reply := do
  let invalidInAddrArpa : Reply := ⟨[], [.log (ngxString "invalid in-addr.arpa name in DNS response")]⟩
  let c ← copy fuel buf 12 n false m.name
  if c.rc ≠ .ok then return invalidInAddrArpa
  match ptrAddr buf 4 0 12 0 with
  | none => return invalidInAddrArpa
  | some (addr, i) =>
    if load buf i 14 ≠ inAddrArpa then return invalidInAddrArpa
    match lookupAddr r addr r.addrRbtree with
    | none => return ⟨[], [.log (ngxString "unexpected response for %ud.%ud.%ud.%ud")]⟩
    | some rn =>
      if (r.node rn).query = none then return ⟨[], [.log (ngxString "unexpected response for %ud.%ud.%ud.%ud")]⟩
      if ident ≠ (r.node rn).ident then
        return ⟨[.node rn], [.log (ngxString "wrong ident %ui response for %ud.%ud.%ud.%ud, expect %ui")]⟩
      let code := if code = 0 ∧ nan = 0 then 3 else code
      if code ≠ 0 then return ⟨[.node rn], answerCode r rn code⟩
      let i := i + 14 + 4
      if n < i + 2 + 10 then return ⟨[.node rn], [.log (ngxString "short DNS response")]⟩
      if buf i ≠ 0xc0 ∨ buf (i + 1) ≠ 0x0c then
        return ⟨[.node rn], [.log (ngxString "invalid in-addr.arpa name in DNS response")]⟩
      let an := Record.read buf i (i + 2)
      if n < an.data + an.len then return ⟨[.node rn], [.log (ngxString "short DNS response")]⟩
      let c ← copy fuel buf an.data n true m.answer
      if c.rc ≠ .ok then return ⟨[.node rn], []⟩
      let name := c.name.getD []
      let renamed := name.length ≠ (r.node rn).name.length ∨ strcmp name (r.node rn).name ≠ 0
      let calls := if renamed then [.setName rn name] else []
      if renamed ∧ !m.dup then return ⟨[.node rn], calls⟩
      return ⟨[.node rn], calls ++ [.queueRemove rn, .setTimes rn (r.time + r.valid) (r.time + r.expire),
        .expireInsert rn, .setWaiting rn] ++
          (r.node rn).waiting.map fun ctx => .handler rn ctx 0 (some name) []⟩

-- The nodes of a queue up to the one with the ident.
def findIdent (r : Resolver) (ident : Nat) : List Nat → List Element × Bool
  | [] => ([], false)
  | q :: queue =>
      if (r.node q).ident = ident then ([.node q], true)
      else
        let (treated, found) := findIdent r ident queue
        (.node q :: treated, found)

-- The loop behind NGX_RESOLVE_FORMERR. At the sentinel its condition is times++ < 100: the loop
-- takes it for a node and goes round again, as long as turns are left.
def formerrLoop (r : Resolver) (ident : Nat) : Nat → List Element × Bool
  | 0 => findIdent r ident r.nameResendQueue
  | turns + 1 =>
      let (treated, found) := findIdent r ident r.nameResendQueue
      if found then (treated, true)
      else if r.sentinelIdent = ident then (treated ++ [.nameSentinel], true)
      else
        let (more, found) := formerrLoop r ident turns
        (treated ++ .nameSentinel :: more, found)

-- The loop over the name of the question: the offset of its end.
def skipQuestion (buf : Memory) (n : Nat) : Nat → Nat → Option Nat
  | 0, _ => none
  | turns + 1, i =>
      if i < n then
        if buf i = 0 then some i else skipQuestion buf n turns (i + 1 + (buf i).toNat)
      else none

def word (buf : Memory) (i : Nat) : Nat := (buf i).toNat * 256 + (buf (i + 1)).toNat

def identOf (buf : Memory) : Nat := word buf 0

def flagsOf (buf : Memory) : Nat := word buf 2

def codeOf (buf : Memory) : Nat := flagsOf buf &&& 0x7f

-- ngx_resolver_process_response
def processResponse (fuel : Nat) (r : Resolver) (m : Allocs) (buf : Memory) (n : Nat) : Option Reply := do
  let shortResponse : Reply := ⟨[], [.log (ngxString "short dns response")]⟩
  if n < 12 then return shortResponse
  let ident := identOf buf
  let code := codeOf buf
  let nqs := word buf 4
  let nan := word buf 6
  if flagsOf buf &&& 0x8000 = 0 then return ⟨[], [.log (ngxString "invalid DNS response %ui fl:%04Xui")]⟩
  if code = 1 then
    let (treated, found) := formerrLoop r ident 100
    if found then
      return ⟨treated, [.log (ngxString "DNS error (%ui: %s), query id:%ui, name:\"%*s\"")]⟩
    else return ⟨treated, [.log (ngxString "DNS error (%ui: %s), query id:%ui")]⟩
  if 5 < code then return ⟨[], [.log (ngxString "DNS error (%ui: %s), query id:%ui")]⟩
  if nqs ≠ 1 then return ⟨[], [.log (ngxString "invalid number of questions in DNS response")]⟩
  match skipQuestion buf n (n - 12) 12 with
  | none => return shortResponse
  | some i =>
    -- i is never 0 here, so the test for a zero-length name is never true
    let i := i + 1
    if n < i + 4 + nan * (2 + 10) then return shortResponse
    if word buf (i + 2) ≠ 1 then return ⟨[], [.log (ngxString "unknown query class %ui in DNS response")]⟩
    if word buf i = 1 then
      let scan ← processA fuel r m buf n ident code nan (i + 4)
      return scan.reply
    else if word buf i = 12 then processPtr fuel r m buf n ident code nan
    else return ⟨[], [.log (ngxString "unknown query type %ui in DNS response")]⟩

end Nginx.Core.Resolver
