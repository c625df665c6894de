import Nginx.Core.Hash.Layout
import Nginx.Library.Ranges

namespace Nginx.Palloc

open Ranges Hash

-- What is held of the system's memory, and the addresses that the system is going to answer with. A wrong free is kept.
structure Sys where
  held : List Range
  answers : List Nat
  badFree : Bool
  deriving DecidableEq, Repr

-- The system gives no address twice, not even for no bytes.
def rangeAt (a size : Nat) : Range := ⟨a, max size 1⟩

-- ngx_alloc and ngx_memalign; none if the system does not answer so.
def memalign (alignment size : Nat) (sys : Sys) : Option (Nat × Sys) :=
  match sys.answers with
  | [] => none
  | a :: answers =>
      if a ≠ 0 ∧ a % alignment = 0 ∧ ∀ r ∈ sys.held, (rangeAt a size).Apart r then
        some (a, { sys with held := rangeAt a size :: sys.held, answers := answers })
      else none

-- ngx_free
def free (a : Nat) (sys : Sys) : Sys :=
  if sys.held.any fun r => r.addr == a then { sys with held := sys.held.filter fun r => r.addr != a }
  else { sys with badFree := true }

-- ngx_pool_data_t at its address; the next block is the next one in the list.
structure Block where
  addr : Nat
  last : Nat
  endp : Nat
  failed : Nat
  deriving DecidableEq, Repr

-- ngx_pool_large_t at its address, with the size of what it points to
structure Large where
  record : Nat
  alloc : Option Range
  deriving DecidableEq, Repr

-- ngx_pool_cleanup_t at its address; 0 is NULL.
structure Cleanup where
  record : Nat
  data : Nat
  deriving DecidableEq, Repr

-- ngx_pool_t: current is the place of a block, and chain has the addresses of the free links.
structure Pool where
  blocks : List Block
  max : Nat
  current : Nat
  chain : List Nat
  large : List Large
  cleanup : List Cleanup
  deriving DecidableEq, Repr

-- The sizes of ngx_pool_t, ngx_pool_data_t, ngx_pool_large_t, ngx_pool_cleanup_t and ngx_chain_t
def poolSize : Nat := 80
def dataSize : Nat := 32
def largeSize : Nat := 16
def cleanupSize : Nat := 24
def chainSize : Nat := 16

-- NGX_ALIGNMENT, NGX_POOL_ALIGNMENT, NGX_MAX_ALLOC_FROM_POOL and NGX_MIN_POOL_SIZE
def alignment : Nat := 8
def poolAlignment : Nat := 16
def maxAllocFromPool : Nat := 4095
def minPoolSize : Nat := align (poolSize + 2 * largeSize) poolAlignment

-- ngx_create_pool
def createPool (size : Nat) (sys : Sys) : Option (Pool × Sys) := do
  let (p, sys) ← memalign poolAlignment size sys
  let max := if size - poolSize < maxAllocFromPool then size - poolSize else maxAllocFromPool
  return (⟨[⟨p, p + poolSize, p + size, 0⟩], max, 0, [], [], []⟩, sys)

-- The do loop of ngx_palloc, which aligns, and of ngx_pnalloc, over the blocks from current on
def findSpace (aligned : Bool) (size : Nat) : List Block → Option (Nat × List Block)
  | [] => none
  | p :: blocks =>
      let m := if aligned then align p.last alignment else p.last
      if size ≤ toSize (p.endp - m) then some (m, { p with last := m + size } :: blocks)
      else
        match findSpace aligned size blocks with
        | none => none
        | some (m, blocks) => some (m, p :: blocks)

-- for (p = current; p->d.next; p = p->d.next), from the block at place i on
def countFailed : List Block → Nat → Nat → List Block × Nat
  | [], _, current => ([], current)
  | [p], _, current => ([p], current)
  | p :: next :: blocks, i, current =>
      let (blocks, current) := countFailed (next :: blocks) (i + 1) (if p.failed > 4 then i + 1 else current)
      ({ p with failed := p.failed + 1 } :: blocks, current)

-- ngx_palloc_block
def pallocBlock (pool : Pool) (size : Nat) (sys : Sys) : Option (Nat × Pool × Sys) := do
  let first ← pool.blocks.head?
  let psize := first.endp - first.addr
  let (new, sys) ← memalign poolAlignment psize sys
  let m := align (new + dataSize) alignment
  let (blocks, current) := countFailed (pool.blocks.drop pool.current) pool.current pool.current
  let blocks := pool.blocks.take pool.current ++ (blocks ++ [⟨new, m + size, new + psize, 0⟩])
  return (m, { pool with blocks := blocks, current := current }, sys)

-- ngx_palloc and ngx_pnalloc for a size up to max
def pallocSmall (aligned : Bool) (pool : Pool) (size : Nat) (sys : Sys) : Option (Nat × Pool × Sys) :=
  match findSpace aligned size (pool.blocks.drop pool.current) with
  | some (m, blocks) => some (m, { pool with blocks := pool.blocks.take pool.current ++ blocks }, sys)
  | none => pallocBlock pool size sys

-- A record whose memory is freed, among those that are looked at
def reuseLarge (p : Range) : List Large → Nat → Option (List Large)
  | [], _ => none
  | l :: large, n =>
      if l.alloc = none then some ({ l with alloc := some p } :: large)
      else if n > 3 then none
      else (reuseLarge p large (n + 1)).map fun large => l :: large

-- large->alloc = p in a new record of ngx_palloc, which calls itself without end if max is less than its size.
def linkLarge (p : Range) (pool : Pool) (sys : Sys) : Option (Nat × Pool × Sys) := do
  let (record, pool, sys) ← if largeSize ≤ pool.max then pallocSmall true pool largeSize sys else none
  return (p.addr, { pool with large := ⟨record, some p⟩ :: pool.large }, sys)

-- ngx_palloc_large
def pallocLarge (pool : Pool) (size : Nat) (sys : Sys) : Option (Nat × Pool × Sys) := do
  let (p, sys) ← memalign alignment size sys
  match reuseLarge (rangeAt p size) pool.large 0 with
  | some large => return (p, { pool with large := large }, sys)
  | none => linkLarge (rangeAt p size) pool sys

-- ngx_palloc, and ngx_pnalloc where aligned is false; ngx_pcalloc is ngx_palloc and zeroes what it gives.
def palloc (aligned : Bool) (pool : Pool) (size : Nat) (sys : Sys) : Option (Nat × Pool × Sys) :=
  if size ≤ pool.max then pallocSmall aligned pool size sys else pallocLarge pool size sys

-- ngx_pmemalign
def pmemalign (pool : Pool) (size boundary : Nat) (sys : Sys) : Option (Nat × Pool × Sys) := do
  let (p, sys) ← memalign boundary size sys
  linkLarge (rangeAt p size) pool sys

-- l->alloc = NULL in the first record with p; none is NGX_DECLINED.
def dropLarge (p : Nat) : List Large → Option (List Large)
  | [] => none
  | l :: large =>
      if l.alloc.any fun r => r.addr == p then some ({ l with alloc := none } :: large)
      else (dropLarge p large).map fun large => l :: large

-- ngx_pfree
def pfree (pool : Pool) (p : Nat) (sys : Sys) : Pool × Sys :=
  match dropLarge p pool.large with
  | some large => ({ pool with large := large }, free p sys)
  | none => (pool, sys)

-- ngx_pool_cleanup_add, with the block of data
def cleanupAdd (pool : Pool) (size : Nat) (sys : Sys) : Option (Nat × Pool × Sys) := do
  let (record, pool, sys) ← palloc true pool cleanupSize sys
  let (data, pool, sys) ← if size ≠ 0 then palloc true pool size sys else some (0, pool, sys)
  return (data, { pool with cleanup := ⟨record, data⟩ :: pool.cleanup }, sys)

-- ngx_alloc_chain_link
def allocChainLink (pool : Pool) (sys : Sys) : Option (Nat × Pool × Sys) :=
  match pool.chain with
  | link :: chain => some (link, { pool with chain := chain }, sys)
  | [] => palloc true pool chainSize sys

-- ngx_free_chain
def freeChain (pool : Pool) (link : Nat) : Pool := { pool with chain := link :: pool.chain }

def freeLarge (large : List Large) (sys : Sys) : Sys :=
  large.foldl (fun sys l => match l.alloc with | some r => free r.addr sys | none => sys) sys

-- ngx_reset_pool
def resetPool (pool : Pool) (sys : Sys) : Pool × Sys :=
  ({ pool with large := [], blocks := pool.blocks.map fun p => { p with last := p.addr + poolSize } },
    freeLarge pool.large sys)

-- ngx_destroy_pool, without the handlers of the cleanup records
def destroyPool (pool : Pool) (sys : Sys) : Sys :=
  pool.blocks.foldl (fun sys p => free p.addr sys) (freeLarge pool.large sys)

end Nginx.Palloc
