import Nginx.Core.Bytes
import Nginx.Library.Interleaving

namespace Nginx.FileCache

-- The address of a chunk of the slab pool.
abbrev Ptr := Nat

-- ngx_http_file_cache_node_t without the links
structure Node where
  key : Bytes
  count : Nat
  uses : Nat
  validMsec : Nat
  error : Nat
  existsFlag : Bool
  updating : Bool
  deleting : Bool
  uniq : Nat
  expire : Int
  validSec : Int
  bodyStart : Nat
  fsSize : Int
deriving DecidableEq

-- ngx_http_file_cache_sh_t: the nodes in the tree, those in the queue with the head first, the chunks that are
-- allocated for nodes, and what the chunks hold.
structure Shared where
  node : Ptr → Node
  tree : Finset Ptr
  queue : List Ptr
  slab : Finset Ptr
  size : Int
  cold : Bool

-- Of ngx_http_cache_t: what the sections below read and write.
structure Cache where
  key : Bytes
  minUses : Nat
  error : Nat
  validSec : Int
  validMsec : Nat
  bodyStart : Nat
  uniq : Nat
  fsSize : Int
  existsFlag : Bool
  updating : Bool
  node : Ptr
deriving DecidableEq

inductive Rc where
  | ok
  | again
  | declined
  | error
deriving DecidableEq

-- The bit fields count:20, uses:10, error:10 and valid_msec:10
def increment (count : Nat) : Nat := (count + 1) % 2 ^ 20

def decrement (count : Nat) : Nat := (count + (2 ^ 20 - 1)) % 2 ^ 20

def tenBits (n : Nat) : Nat := n % 2 ^ 10

def Shared.set (sh : Shared) (p : Ptr) (n : Node) : Shared := { sh with node := Function.update sh.node p n }

-- ngx_queue_remove, ngx_rbtree_delete and ngx_slab_free_locked of one node
def Shared.remove (sh : Shared) (p : Ptr) : Shared :=
  { sh with queue := sh.queue.erase p, tree := sh.tree.erase p, slab := sh.slab.erase p }

-- What ngx_http_file_cache_lookup may find: a node of the tree that has the key.
def Shared.finds (sh : Shared) (key : Bytes) : Option Ptr → Bool
  | some p => p ∈ sh.tree ∧ (sh.node p).key = key
  | none => ∀ p ∈ sh.tree, (sh.node p).key ≠ key

-- What ngx_slab_alloc_locked may return
def Shared.allocates (sh : Shared) : Option Ptr → Bool
  | some p => p ∉ sh.slab
  | none => true

variable (inactive : Int)

-- The label renew of ngx_http_file_cache_exists
def Node.renew (n : Node) : Node :=
  { n with validMsec := 0, error := 0, existsFlag := false, validSec := 0, uniq := 0, bodyStart := 0, fsSize := 0 }

-- The label done
def linkNode (now : Int) (sh : Shared) (c : Cache) (p : Ptr) (n : Node) : Shared × Cache :=
  ({ sh.set p { n with expire := now + inactive } with queue := p :: sh.queue.erase p },
    { c with uniq := n.uniq, error := n.error, node := p })

def Node.expired (now : Int) (n : Node) : Bool := n.error ≠ 0 && n.validSec < now

-- A node that has been found. It is taken out of the queue before.
def useNode (now : Int) (sh : Shared) (c : Cache) (p : Ptr) : Rc × Shared × Cache :=
  let n := sh.node p
  let n := { n with uses := tenBits (n.uses + 1), count := increment n.count }
  if n.expired now then (.declined, linkNode inactive now sh c p n.renew)
  else if n.error ≠ 0 then (.ok, linkNode inactive now sh c p n)
  else if n.existsFlag || c.minUses ≤ n.uses then
    let c := { c with existsFlag := n.existsFlag, bodyStart := if n.bodyStart ≠ 0 then n.bodyStart else c.bodyStart }
    (.ok, linkNode inactive now sh c p n)
  else (.again, linkNode inactive now sh c p n)

-- A chunk that has been allocated
def newNode (now : Int) (sh : Shared) (c : Cache) (p : Ptr) : Rc × Shared × Cache :=
  let n := { sh.node p with key := c.key, uses := 1, count := 1, updating := false, deleting := false }
  (.declined, linkNode inactive now { sh with tree := insert p sh.tree, slab := insert p sh.slab } c p n.renew)

-- ngx_http_file_cache_update under the lock. Without a uniq and a size the rename has failed.
def update (sh : Shared) (c : Cache) (renamed : Option (Nat × Int)) : Shared :=
  let n := sh.node c.node
  let file := renamed.getD (0, 0)
  { sh.set c.node
      { n with
        count := decrement n.count, uniq := file.1, bodyStart := c.bodyStart, fsSize := file.2
        existsFlag := renamed.isSome || n.existsFlag, updating := false } with
    size := sh.size + (file.2 - n.fsSize) }

-- ngx_http_file_cache_free under the lock
def free (sh : Shared) (c : Cache) : Shared :=
  let n := sh.node c.node
  let n := { n with count := decrement n.count, updating := n.updating && !c.updating }
  if c.error ≠ 0 then
    let n := { n with error := tenBits c.error }
    sh.set c.node
      (if c.validSec ≠ 0 then { n with validSec := c.validSec, validMsec := tenBits c.validMsec } else n)
  else if !n.existsFlag && n.count = 0 && c.minUses = 1 then (sh.set c.node n).remove c.node
  else sh.set c.node n

-- ngx_http_file_cache_read under the lock, where cache->sh->cold has been set
def markExists (sh : Shared) (c : Cache) : Shared :=
  let n := sh.node c.node
  if n.existsFlag then sh
  else
    { sh.set c.node
        { n with uses := 1, bodyStart := c.bodyStart, existsFlag := true, uniq := c.uniq, fsSize := c.fsSize } with
      size := sh.size + c.fsSize }

-- ngx_http_file_cache_read under the lock, where c->valid_sec is over
def stale (sh : Shared) (c : Cache) : Shared × Cache :=
  let n := sh.node c.node
  if n.updating then (sh, c) else (sh.set c.node { n with updating := true }, { c with updating := true })

-- ngx_http_file_cache_delete up to where it unlocks, with the node whose file is to be deleted
def delete (sh : Shared) (p : Ptr) : Shared × Option Ptr :=
  let n := sh.node p
  if n.existsFlag then
    ({ sh.set p { n with count := increment n.count, deleting := true } with size := sh.size - n.fsSize }, some p)
  else if n.count = 0 then (sh.remove p, none)
  else (sh, none)

-- ngx_http_file_cache_delete from where it has locked again
def deleted (sh : Shared) (p : Ptr) : Shared :=
  let n := sh.node p
  let n := { n with count := decrement n.count, deleting := false }
  if n.count = 0 then (sh.set p n).remove p else sh.set p n

-- The loop of ngx_http_file_cache_forced_expire, from the tail of the queue
def forcedExpire : Nat → List Ptr → Shared → Shared × Option Ptr
  | _, [], sh => (sh, none)
  | tries, p :: ps, sh =>
    if (sh.node p).count = 0 then delete sh p
    else if tries - 1 ≠ 0 then forcedExpire (tries - 1) ps sh
    else (sh, none)

-- The loop of ngx_http_file_cache_expire, to its end or to where it unlocks for a file
def expire (now : Int) : Nat → Shared → Option (Shared × Option Ptr)
  | 0, _ => none
  | fuel + 1, sh =>
    match sh.queue.getLast? with
    | none => some (sh, none)
    | some p =>
      let n := sh.node p
      if now < n.expire then some (sh, none)
      else if n.count = 0 then
        match delete sh p with
        | (sh, some p) => some (sh, some p)
        | (sh, none) => expire now fuel sh
      else if n.deleting then some (sh, none)
      else
        expire now fuel
          { sh.set p { n with expire := now + inactive } with queue := p :: sh.queue.erase p }

-- ngx_http_file_cache_add
def add (now : Int) (sh : Shared) (key : Bytes) (fsSize : Int) (found alloc : Option Ptr) : Shared :=
  match found, alloc with
  | some p, _ =>
    { sh.set p { sh.node p with expire := now + inactive } with queue := p :: sh.queue.erase p }
  | none, none => sh
  | none, some p =>
    { sh.set p
        { sh.node p with
          key := key, uses := 1, count := 0, validMsec := 0, error := 0, existsFlag := true, updating := false
          deleting := false, uniq := 0, validSec := 0, bodyStart := 0, fsSize := fsSize, expire := now + inactive } with
      tree := insert p sh.tree, slab := insert p sh.slab, queue := p :: sh.queue, size := sh.size + fsSize }

-- What goes on behind a removal of a file: ngx_http_file_cache_exists for a request, the end of a forced expire of
-- the manager, or the loop of its expire.
inductive After where
  | retry (c : Cache)
  | forced
  | expire
deriving DecidableEq

-- Where a party stands between two critical sections. A request that is held has a node and is not updated.
inductive Place where
  | idle
  | held (c : Cache)
  | marking (c : Cache)
  | crowded (c : Cache)
  | retrying (c : Cache)
  | deleting (p : Ptr) (after : After)
deriving DecidableEq

-- What a party does next, with what the time, the memory, the tree and the file system say.
inductive Move where
  | lookup (c : Cache) (now : Int) (found alloc : Option Ptr)
  | forcedExpire (memory : Bool)
  | retry (now : Int) (alloc : Option Ptr)
  | work (c : Cache)
  | checkCold
  | markExists
  | stale
  | update (renamed : Option (Nat × Int))
  | free
  | expire (now : Int) (fuel : Nat)
  | deleted (now : Int) (fuel : Nat)
  | add (now : Int) (key : Bytes) (fsSize : Int) (found alloc : Option Ptr)
  | loaded

-- Where ngx_http_file_cache_exists goes on behind the forced expire
def After.place : After → Place
  | .retry c => .retrying c
  | .forced => .idle
  | .expire => .idle

def placeOf (after : After) : Option Ptr → Place
  | some p => .deleting p after
  | none => after.place

-- One critical section of a party, or what it does without the lock
def turn (sh : Shared) : Place → Move → Option (Shared × Place)
  | .idle, .lookup c now found alloc =>
      if sh.finds c.key found && sh.allocates alloc then
        match found, alloc with
        | some p, _ =>
            let (_, sh, c) := useNode inactive now sh c p
            some (sh, .held c)
        | none, some p =>
            let (_, sh, c) := newNode inactive now sh c p
            some (sh, .held c)
        | none, none => some (sh, .crowded c)
      else none
  | .idle, .forcedExpire memory =>
      if memory then
        let (sh, p) := forcedExpire 20 sh.queue.reverse sh
        some (sh, placeOf .forced p)
      else some (sh, .idle)
  | .crowded c, .forcedExpire memory =>
      if memory then
        let (sh, p) := forcedExpire 20 sh.queue.reverse sh
        some (sh, placeOf (.retry c) p)
      else some (sh, .retrying c)
  | .retrying c, .retry now alloc =>
      if sh.allocates alloc then
        match alloc with
        | some p =>
            let (_, sh, c) := newNode inactive now sh c p
            some (sh, .held c)
        | none => some (sh, .idle)
      else none
  | .held c, .work c' => if c'.node = c.node && c'.key = c.key then some (sh, .held c') else none
  | .held c, .checkCold => some (sh, if sh.cold then .marking c else .held c)
  | .marking c, .markExists => some (markExists sh c, .held c)
  | .held c, .stale =>
      let (sh, c) := stale sh c
      some (sh, .held c)
  | .held c, .update renamed => some (update sh c renamed, .idle)
  | .held c, .free => some (free sh c, .idle)
  | .idle, .expire now fuel => do
      let (sh, p) ← expire inactive now fuel sh
      return (sh, placeOf .expire p)
  | .deleting p .expire, .deleted now fuel => do
      let (sh, q) ← expire inactive now fuel (deleted sh p)
      return (sh, placeOf .expire q)
  | .deleting p after, .deleted _ _ => some (deleted sh p, after.place)
  | .idle, .add now key fsSize found alloc =>
      if sh.finds key found && sh.allocates alloc then some (add inactive now sh key fsSize found alloc, .idle) else none
  | .idle, .loaded => some ({ sh with cold := false }, .idle)
  | _, _ => none

end Nginx.FileCache
