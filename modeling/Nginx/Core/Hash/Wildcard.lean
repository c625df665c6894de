import Nginx.Core.Hash

namespace Nginx.Hash

open ByteMemory

-- ngx_dns_strcmp. What is behind the end of a string is its NUL.
def dnsOrder (c : UInt8) : Int := if c = dot then 32 else c.toNat

def dnsStrcmp : Bytes → Bytes → Int
  | [], s2 =>
      let c2 := tolower (s2.headD 0)
      if c2 = 0 then 0 else 0 - dnsOrder c2
  | c :: s1, s2 =>
      let c1 := tolower c
      let c2 := tolower (s2.headD 0)
      if c1 = c2 then
        if c1 = 0 then 0 else dnsStrcmp s1 s2.tail
      else dnsOrder c1 - dnsOrder c2

-- ngx_http_cmp_dns_wildcards
def cmpDnsWildcards (one two : Key) : Int := dnsStrcmp one.data two.data

-- A comparison that orders the members of a list
structure Consistent {α : Type} (cmp : α → α → Int) (l : List α) : Prop where
  total : ∀ a ∈ l, ∀ b ∈ l, cmp a b ≤ 0 ∨ cmp b a ≤ 0
  trans : ∀ a ∈ l, ∀ b ∈ l, ∀ c ∈ l, cmp a b ≤ 0 → cmp b c ≤ 0 → cmp a c ≤ 0

-- ngx_qsort, which is qsort of the C library
structure Qsort where
  sort : (Key → Key → Int) → List Key → List Key
  perm : ∀ cmp l, (sort cmp l).Perm l
  sorted : ∀ cmp l, Consistent cmp l → (sort cmp l).Pairwise fun a b => cmp a b ≤ 0

-- ngx_hash_wildcard_t, with the memory as ngx_hash_init has left it
structure Wildcard where
  table : Table
  mem : Memory
  value : Nat

-- The wildcard hashes by their addresses
abbrev Heap := List (Nat × Wildcard)

-- The answers of the pool to the next calls of ngx_hash_init, and what its new memory holds
structure Pool where
  answers : List Answers
  mem : Memory
  heap : Heap

def Pool.setValue (pool : Pool) (address value : Nat) : Pool :=
  { pool with heap := pool.heap.map fun entry =>
      if entry.1 = address then (entry.1, { entry.2 with value := value }) else entry }

-- The second loop of ngx_hash_wildcard_init: whether a name belongs to the group of the first one, whose label has
-- len bytes with its dot.
def sameGroup (first : Bytes) (len : Nat) (hasDot : Bool) (other : Bytes) : Bool :=
  strncmp len first other && !(!hasDot && other.length > len && other[len]? != some dot)

def plainKey (data : Bytes) (keyHash value : Nat) : Key := { data, null := false, keyHash, value }

-- The first loop: the label at the start of a name, whether a dot ends it, and its length with that dot.
def firstLabel (name : Key) : Bytes := name.data.takeWhile (· ≠ dot)

def hasDot (name : Key) : Bool := (firstLabel name).length < name.data.length

def labelLen (name : Key) : Nat :=
  if (firstLabel name).length < name.data.length then (firstLabel name).length + 1 else (firstLabel name).length

def inGroup (name other : Key) : Bool := sameGroup name.data (labelLen name) (hasDot name) other.data

-- next_names for the group of a name
def nextNames (name : Key) (others : List Key) : List Key :=
  (if name.data.length ≠ labelLen name then [plainKey (name.data.drop (labelLen name)) 0 name.value] else []) ++
    others.map fun other => plainKey (other.data.drop ((firstLabel name).length + 1)) 0 other.value

-- The result of a function of the hash: none is behaviour that C leaves undefined, or fuel that has run out, and
-- the inner none is NGX_ERROR.
abbrev Result (α : Type) := Option (Option α)

-- The loop of ngx_hash_wildcard_init over the groups. build is the recursive call.
def wildcardLoop (build : List Key → Pool → Result (Nat × Pool)) :
    Nat → List Key → List Key → Pool → Result (List Key × Pool)
  | _, [], curr, pool => some (some (curr, pool))
  | 0, _ :: _, _, _ => none
  | n + 1, name :: names, curr, pool =>
      let label := firstLabel name
      let others := names.takeWhile (inGroup name)
      let rest := names.drop others.length
      let next := nextNames name others
      if next = [] then
        let value := if hasDot name then name.value ||| 1 else name.value
        wildcardLoop build n rest (curr ++ [plainKey label (hashKeyLc label) value]) pool
      else
        match build next pool with
        | none => none
        | some none => some none
        | some (some (wdc, pool)) =>
            let pool := if name.data.length = labelLen name then pool.setValue wdc name.value else pool
            let value := wdc ||| (if hasDot name then 3 else 2)
            wildcardLoop build n rest (curr ++ [plainKey label (hashKeyLc label) value]) pool

-- ngx_hash_wildcard_init with hinit->hash NULL; it gives the address of the new hash. The first argument bounds the
-- depth of the recursion.
def wildcardInit (cacheline : Nat) (hinit : Init) : Nat → List Key → Pool → Result (Nat × Pool)
  | 0, _, _ => none
  | depth + 1, names, pool =>
      match wildcardLoop (wildcardInit cacheline hinit depth) names.length names [] pool with
      | none => none
      | some none => some none
      | some (some (curr, pool)) =>
          match pool.answers with
          | [] => some none
          | answer :: answers =>
              match init cacheline hinit answer curr pool.mem, answer.table with
              | none, _ => none
              | some (some (table, mem)), some address =>
                  some (some (address, { pool with
                    answers := answers
                    heap := (address, { table := table, mem := mem, value := 0 }) :: pool.heap }))
              | some _, _ => some none

-- The pointer without its two low bits
def untag (value : Nat) : Nat := value / 4 * 4

-- ngx_hash_find in the table of a wildcard hash, where each element of a bucket is passed once
def Wildcard.find (hwc : Wildcard) (key : Nat) (name : Bytes) : Option Nat :=
  Hash.find (hwc.table.placed.length + 1) hwc.table hwc.mem key name

-- ngx_hash_find_wc_head; none is a wild pointer or fuel that has run out.
def findWcHead (heap : Heap) : Nat → Wildcard → Bytes → Option Nat
  | 0, _, _ => none
  | fuel + 1, hwc, name => do
      let label := (name.reverse.takeWhile (· ≠ dot)).reverse
      let n := name.length - label.length
      let value ← hwc.find (hashKey label) label
      if value = 0 then some hwc.value
      else if value.testBit 1 then
        if n = 0 then
          if value.testBit 0 then some 0 else (heap.lookup (untag value)).map Wildcard.value
        else do
          let hwc ← heap.lookup (untag value)
          let value ← findWcHead heap fuel hwc (name.take (n - 1))
          if value ≠ 0 then some value else some hwc.value
      else if value.testBit 0 then
        if n = 0 then some 0 else some (untag value)
      else some value

-- ngx_hash_find_wc_tail
def findWcTail (heap : Heap) : Nat → Wildcard → Bytes → Option Nat
  | 0, _, _ => none
  | fuel + 1, hwc, name => do
      let label := name.takeWhile (· ≠ dot)
      if label.length = name.length then some 0
      else
        let value ← hwc.find (hashKey label) label
        if value = 0 then some hwc.value
        else if value.testBit 1 then do
          let hwc ← heap.lookup (untag value)
          let value ← findWcTail heap fuel hwc (name.drop (label.length + 1))
          if value ≠ 0 then some value else some hwc.value
        else some value

-- ngx_hash_combined_t; none is a NULL pointer.
structure Combined where
  hash : Option (Table × Memory)
  wcHead : Option Wildcard
  wcTail : Option Wildcard

-- The three steps of ngx_hash_find_combined; a NULL pointer finds nothing.
def Combined.findExact (hash : Combined) (key : Nat) (name : Bytes) : Option Nat :=
  match hash.hash with
  | some (table, mem) => find (table.placed.length + 1) table mem key name
  | none => some 0

def Combined.findHead (heap : Heap) (hash : Combined) (name : Bytes) : Option Nat :=
  match hash.wcHead with
  | some hwc => findWcHead heap (name.length + 1) hwc name
  | none => some 0

def Combined.findTail (heap : Heap) (hash : Combined) (name : Bytes) : Option Nat :=
  match hash.wcTail with
  | some hwc => findWcTail heap (name.length + 1) hwc name
  | none => some 0

-- ngx_hash_find_combined
def findCombined (heap : Heap) (hash : Combined) (key : Nat) (name : Bytes) : Option Nat := do
  let exact ← hash.findExact key name
  if exact ≠ 0 then some exact
  else if name = [] then some 0
  else
    let head ← hash.findHead heap name
    if head ≠ 0 then some head else hash.findTail heap name

-- A sorted array of wildcards is built when it has names; its hash is read back from the heap.
def buildWildcards (qsort : Qsort) (cacheline : Nat) (hinit : Init) (depth : Nat) (names : List Key) (pool : Pool) :
    Result (Option Wildcard × Pool) :=
  if names = [] then some (some (none, pool))
  else
    match wildcardInit cacheline hinit depth (qsort.sort cmpDnsWildcards names) pool with
    | none => none
    | some none => some none
    | some (some (address, pool)) => some (some (pool.heap.lookup address, pool))

-- ngx_http_server_names without regular expressions, for the names of all servers of an address
def serverNames (qsort : Qsort) (cacheline : Nat) (hinit : Init) (depth : Nat) (names : List (Bytes × Nat))
    (exact : Answers) (pool : Pool) : Result (Combined × Heap) :=
  match addNames .large names with
  | none => some none
  | some ha =>
      let hash := if ha.keys = [] then some (some none)
        else (init cacheline hinit exact ha.keys pool.mem).map fun made => made.map some
      match hash with
      | none => none
      | some none => some none
      | some (some hash) =>
          match buildWildcards qsort cacheline hinit depth ha.dnsWcHead pool with
          | none => none
          | some none => some none
          | some (some (wcHead, pool)) =>
              match buildWildcards qsort cacheline hinit depth ha.dnsWcTail pool with
              | none => none
              | some none => some none
              | some (some (wcTail, pool)) => some (some (⟨hash, wcHead, wcTail⟩, pool.heap))

end Nginx.Hash
