import Nginx.Core.Bytes
import Nginx.Library.ByteMemory

namespace Nginx.Hash

open ByteMemory

-- ngx_align for an alignment that is a power of two
def align (d a : Nat) : Nat := (d + (a - 1)) / a * a

-- (u_short)
def toShort (n : Nat) : Nat := n % 2 ^ 16

-- ngx_hash
def hash (key : Nat) (c : UInt8) : Nat := toSize (key * 31 + c.toNat)

-- ngx_hash_key and ngx_hash_key_lc
def hashKey (data : Bytes) : Nat := data.foldl hash 0

def hashKeyLc (data : Bytes) : Nat := data.foldl (fun key c => hash key (tolower c)) 0

-- ngx_hash_key_t; null tells that key.data is NULL, when only the length of data counts.
structure Key where
  data : Bytes
  null : Bool
  keyHash : Nat
  value : Nat

-- The sizes in ngx_hash_init_t.
structure Init where
  maxSize : Nat
  bucketSize : Nat

-- The answers to ngx_alloc for the counters, to ngx_pcalloc for the table and to ngx_palloc for the elements.
structure Answers where
  test : Bool
  table : Option Nat
  elts : Option Nat

-- NGX_HASH_ELT_SIZE
def eltSize (name : Key) : Nat := 8 + align (name.data.length + 2) 8

def update {β : Type} (f : Nat → β) (i : Nat) (v : β) : Nat → β := fun j => if j = i then v else f j

-- The first size that is tried, with the bucket size less the last pointer; none is a division by zero.
def firstSize (hinit : Init) (bucketSize nelts : Nat) : Option Nat :=
  if bucketSize / 16 = 0 then none
  else
    let start := nelts / (bucketSize / 16)
    let start := if start ≠ 0 then start else 1
    some (if hinit.maxSize > 10000 ∧ nelts ≠ 0 ∧ hinit.maxSize / nelts < 100 then hinit.maxSize - 1000 else start)

-- The loop over the names for one size; false goes to next.
def fitsSize (bucketSize size : Nat) : List Key → (Nat → Nat) → Bool
  | [], _ => true
  | name :: names, test =>
      if name.null then fitsSize bucketSize size names test
      else
        let key := name.keyHash % size
        let sum := toShort (test key + eltSize name)
        if sum > toShort bucketSize then false else fitsSize bucketSize size names (update test key sum)

-- The loop over n sizes.
def findSize (bucketSize : Nat) (names : List Key) : Nat → Nat → Option Nat
  | 0, _ => none
  | n + 1, size =>
      if fitsSize bucketSize size names (fun _ => 0) then some size else findSize bucketSize names n (size + 1)

-- test[key] += NGX_HASH_ELT_SIZE(&names[n]), over all names
def countNames (size : Nat) : List Key → (Nat → Nat) → Nat → Nat
  | [], test => test
  | name :: names, test =>
      if name.null then countNames size names test
      else
        let key := name.keyHash % size
        countNames size names (update test key (toShort (test key + eltSize name)))

-- A bucket whose counter has stayed at sizeof(void *) is empty.
def alignCounter (cacheline n : Nat) : Nat := if n = 8 then n else toShort (align n cacheline)

-- The buckets from i on, with the elements at elts.
def placeBuckets (test : Nat → Nat) : Nat → Nat → Nat → (Nat → Nat) → Nat → Nat
  | 0, _, _, buckets => buckets
  | n + 1, i, elts, buckets =>
      if test i = 8 then placeBuckets test n (i + 1) elts buckets
      else placeBuckets test n (i + 1) (elts + test i) (update buckets i elts)

-- value, len and name of an ngx_hash_elt_t
def eltBytes (name : Key) : Bytes :=
  encode 8 name.value ++ (encode 2 (toShort name.data.length) ++ name.data.map tolower)

-- The loop that writes the elements, with their places and the counters at its end.
def writeNames (size : Nat) (buckets : Nat → Nat) :
    List Key → (Nat → Nat) → Memory → List (Nat × Key) × (Nat → Nat) × Memory
  | [], test, mem => ([], test, mem)
  | name :: names, test, mem =>
      if name.null then writeNames size buckets names test mem
      else
        let key := name.keyHash % size
        let elt := buckets key + test key
        let (placed, test', mem') := writeNames size buckets names
          (update test key (toShort (test key + eltSize name))) (store mem elt (eltBytes name))
        ((elt, name) :: placed, test', mem')

-- elt->value = NULL behind the elements of the buckets from i on
def terminate (buckets test : Nat → Nat) : Nat → Nat → Memory → Memory
  | 0, _, mem => mem
  | n + 1, i, mem =>
      if buckets i = 0 then terminate buckets test n (i + 1) mem
      else terminate buckets test n (i + 1) (store mem (buckets i + test i) (encode 8 0))

-- ngx_hash_t, with the storage that each bucket was given and the places of the elements
structure Table where
  size : Nat
  buckets : Nat → Nat
  storage : Nat → Nat
  placed : List (Nat × Key)

-- ngx_hash_init; the outer none is a division by zero and the inner one NGX_ERROR.
def init (cacheline : Nat) (hinit : Init) (answers : Answers) (names : List Key) (mem : Memory) :
    Option (Option (Table × Memory)) :=
  if names.any fun name => hinit.bucketSize < eltSize name + 8 then some none
  else if !answers.test then some none
  else do
    let bucketSize := toSize (hinit.bucketSize - 8)
    let start ← firstSize hinit bucketSize names.length
    match findSize bucketSize names (hinit.maxSize - start) start, answers.table, answers.elts with
    | some size, some _, some elts =>
        let test := fun i => alignCounter cacheline (countNames size names (fun _ => 8) i)
        let buckets := placeBuckets test size 0 (align elts cacheline) (fun _ => 0)
        let (placed, counts, mem) := writeNames size buckets names (fun _ => 0) mem
        return some (⟨size, buckets, test, placed⟩, terminate buckets counts size 0 mem)
    | _, _, _ => return none

-- while (elt->value) in ngx_hash_find; 0 is NULL.
def findElt (mem : Memory) (name : Bytes) : Nat → Nat → Option Nat
  | 0, _ => none
  | fuel + 1, elt =>
      let value := decode (load mem elt 8)
      let len := decode (load mem (elt + 8) 2)
      if value = 0 then some 0
      else if name.length = len ∧ load mem (elt + 10) len = name then some value
      else findElt mem name fuel (align (elt + 10 + len) 8)

-- ngx_hash_find
def find (fuel : Nat) (table : Table) (mem : Memory) (key : Nat) (name : Bytes) : Option Nat :=
  let elt := table.buckets (key % table.size)
  if elt = 0 then some 0 else findElt mem name fuel elt

def dot : UInt8 := 46
def star : UInt8 := 42

-- Whether ngx_strncmp finds no difference. What is behind the end of a string is its NUL.
def strncmp : Nat → Bytes → Bytes → Bool
  | 0, _, _ => true
  | n + 1, s1, s2 =>
      if s1.headD 0 ≠ s2.headD 0 then false
      else if s1.headD 0 = 0 then true
      else strncmp n s1.tail s2.tail

-- ngx_hash_keys_arrays_t; the arrays of a hash are empty until something is added to them.
structure KeysArrays where
  hsize : Nat
  keys : List Key
  keysHash : Nat → List Bytes
  dnsWcHead : List Key
  dnsWcHeadHash : Nat → List Bytes
  dnsWcTail : List Key
  dnsWcTailHash : Nat → List Bytes

-- ngx_hash_keys_array_init for NGX_HASH_LARGE
def KeysArrays.large : KeysArrays where
  hsize := 10007
  keys := []
  keysHash _ := []
  dnsWcHead := []
  dnsWcHeadHash _ := []
  dnsWcTail := []
  dnsWcTailHash _ := []

-- NGX_OK, NGX_DECLINED and NGX_BUSY
inductive Added where
  | ok (ha : KeysArrays)
  | declined
  | busy (ha : KeysArrays)

-- The first loop of ngx_hash_add_key: how many stars there are, or none for NGX_DECLINED.
def countStars : Bytes → Nat → Option Nat
  | [], n => some n
  | c :: key, n =>
      if c = star ∧ n + 1 > 1 then none
      else if c = dot ∧ key.head? = some dot then none
      else countStars key (if c = star then n + 1 else n)

-- An exact name, or a wildcard with skip and last.
inductive Form where
  | exact
  | wildcard (skip last : Nat)
  deriving DecidableEq, Repr

def keyForm (key : Bytes) : Option Form :=
  match countStars key 0 with
  | none => none
  | some n =>
      if key.length > 1 ∧ key.head? = some dot then some (.wildcard 1 key.length)
      else if key.length > 2 ∧ [star, dot] <+: key then some (.wildcard 2 key.length)
      else if key.length > 2 ∧ [dot, star] <:+ key then some (.wildcard 0 (key.length - 2))
      else if n ≠ 0 then none
      else some .exact

def conflicts (name : Bytes) (names : List Bytes) : Bool :=
  names.any fun other => name.length = other.length && strncmp name.length name other

def addExact (ha : KeysArrays) (key : Bytes) (value : Nat) : Added :=
  let k := hashKey key % ha.hsize
  if conflicts key (ha.keysHash k) then .busy ha
  else
    .ok { ha with
      keysHash := update ha.keysHash k (ha.keysHash k ++ [key])
      keys := ha.keys ++ [{ data := key, null := false, keyHash := hashKey key, value := value }] }

-- The loop that turns "*.example.com" to "com.example." and ".example.com" to "com.example". It goes down from the
-- last byte to the one at 1; label is what has been passed since the last dot.
def reverseLabels : Bytes → Bytes → Bytes
  | [], label => label
  | c :: rest, label => if c = dot then label ++ dot :: reverseLabels rest [] else reverseLabels rest (c :: label)

-- ngx_cpystrn. The bytes of the new memory behind a NUL are read as zeros.
def cpystrn (src : Bytes) (n : Nat) : Bytes :=
  let copied := (src.take n).takeWhile (· ≠ 0)
  copied ++ List.replicate (n - copied.length) 0

-- The part behind the label wildcard. key has its lower case, name is what stands between skip and last.
def addWildcard (ha : KeysArrays) (key name : Bytes) (skip value : Nat) : Added :=
  let k := hashKey name % ha.hsize
  if skip = 1 ∧ conflicts name (ha.keysHash k) then .busy ha
  else
    let ha := if skip = 1 then { ha with keysHash := update ha.keysHash k (ha.keysHash k ++ [name]) } else ha
    if skip ≠ 0 then
      let p := reverseLabels key.tail.reverse []
      let ha := { ha with dnsWcHead := ha.dnsWcHead ++ [{ data := p, null := false, keyHash := 0, value := value }] }
      if conflicts name (ha.dnsWcHeadHash k) then .busy ha
      else .ok { ha with dnsWcHeadHash := update ha.dnsWcHeadHash k (ha.dnsWcHeadHash k ++ [name]) }
    else
      let p := cpystrn key name.length
      let ha := { ha with dnsWcTail := ha.dnsWcTail ++ [{ data := p, null := false, keyHash := 0, value := value }] }
      let name := key.take (name.length + 1)
      if conflicts name (ha.dnsWcTailHash k) then .busy ha
      else .ok { ha with dnsWcTailHash := update ha.dnsWcTailHash k (ha.dnsWcTailHash k ++ [name]) }

-- ngx_hash_add_key; wildcardKey and readonlyKey are its flags.
def addKey (ha : KeysArrays) (key : Bytes) (value : Nat) (wildcardKey readonlyKey : Bool) : Added :=
  let form := if wildcardKey then keyForm key else some .exact
  match form with
  | none => .declined
  | some .exact => addExact ha (if readonlyKey then key else key.map tolower) value
  | some (.wildcard skip last) =>
      let name := ((key.take last).drop skip).map tolower
      addWildcard ha (key.take skip ++ name ++ key.drop last) name skip value

-- The names of a server that are not regular expressions, with the pointer to the server. NGX_BUSY is only warned of.
def addNames (ha : KeysArrays) : List (Bytes × Nat) → Option KeysArrays
  | [] => some ha
  | (name, server) :: names =>
      match addKey ha name server true false with
      | .ok ha => addNames ha names
      | .busy ha => addNames ha names
      | .declined => none

end Nginx.Hash
