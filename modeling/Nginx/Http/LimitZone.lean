import Nginx.Core.Crc32
import Nginx.Core.Rbtree.Keyed

namespace Nginx.LimitZone

open LinkedTree

-- The tree of a zone with the fields of its nodes, and the chunks taken from its slab pool for them.
structure Zone where
  nodes : Rbtree.Nodes
  key : Ptr → Nat
  len : Ptr → Nat
  conn : Ptr → Nat
  data : Ptr → Bytes
  slab : List Ptr

-- ngx_http_limit_zone_conf_t of a location that has a zone. ngx_http_limit_conn checks the number.
structure Conf where
  conn : Nat
  positive : 0 < conn
  small : conn ≤ 65535

inductive ConfError
  | invalidNumber (value : Bytes)
  | tooMany
  deriving DecidableEq

-- The checks of ngx_http_limit_conn on the number that ngx_atoi made of its second argument.
def limitConn (value : Bytes) (n : Int) : Except ConfError Conf :=
  if hpos : n ≤ 0 then .error (.invalidNumber value)
  else if hsmall : 65535 < n then .error .tooMany
  else .ok ⟨n.toNat, by omega, by omega⟩

-- What the handler reads: limit_zone_set of the main request, the location, the variable, whether
-- ngx_pool_cleanup_add has memory, and what ngx_slab_alloc_locked returns beside the chunks in use.
structure Request where
  limitZoneSet : Bool
  conf : Option Conf
  value : Option Bytes
  cleanupAdd : Bool
  alloc : List Ptr → Nat → Option Ptr

inductive Answer
  | declined
  | unavailable
  | internalError
  deriving DecidableEq

-- A record of ngx_pool_cleanup_add. Without a handler it points to nothing. No code reads the key:
-- it tells for which one the request was admitted.
structure Cleanup where
  node : Option Ptr
  key : Bytes
  deriving DecidableEq

structure World where
  zone : Zone
  cleanups : List Cleanup

def put {β : Type} (f : Ptr → β) (p : Ptr) (v : β) : Ptr → β := fun q => if q = p then v else f q

def hash (data : Bytes) : Nat := (crc32Short data).toNat

-- ngx_http_limit_zone_rbtree_insert_value
def insertValue (ζ : Zone) (fuel : Nat) (s : Ptr) (H : Rbtree.Nodes) (temp node : Ptr) :
    Option Rbtree.Nodes :=
  Rbtree.insertBy (Rbtree.keyedLess ζ.key ζ.len ζ.data node) fuel s H temp node

-- The offsets of color and of data, and the length of the key.
def nodeSize (len : Nat) : Nat := 32 + 4 + len

-- The node of a new key. lz->len = (u_char) len
def create (fuel : Nat) (s : Ptr) (ζ : Zone) (node : Ptr) (data : Bytes) : Option Zone := do
  let ζ := { ζ with
    slab := node :: ζ.slab, key := put ζ.key node (hash data),
    len := put ζ.len node (data.length % 256), conn := put ζ.conn node 1,
    data := put ζ.data node data }
  let H ← Rbtree.insert (insertValue ζ) fuel s ζ.nodes node
  return { ζ with nodes := H }

-- What is done under the lock: the answer, and the node of an admitted request.
def locked (fuel : Nat) (s : Ptr) (ζ : Zone) (conf : Conf) (alloc : List Ptr → Nat → Option Ptr)
    (data : Bytes) : Option (Answer × Option Ptr × Zone) := do
  let node ← Rbtree.search (Rbtree.keyedOrder ζ.key ζ.len ζ.data (hash data) data) s ζ.nodes fuel ζ.nodes.root
  if node ≠ s then
    if ζ.conn node < conf.conn then
      return (.declined, some node, { ζ with conn := put ζ.conn node ((ζ.conn node + 1) % 65536) })
    else return (.unavailable, none, ζ)
  else
    match alloc ζ.slab (nodeSize data.length) with
    | none => return (.unavailable, none, ζ)
    | some node => do
        let ζ ← create fuel s ζ node data
        return (.declined, some node, ζ)

-- The location and the key of a request that comes to the zone.
def Request.limited (r : Request) : Option (Conf × Bytes) :=
  if r.limitZoneSet then none
  else
    match r.conf, r.value with
    | some conf, some data => if data.length = 0 ∨ 255 < data.length then none else some (conf, data)
    | _, _ => none

-- ngx_http_limit_zone_handler: the answer, limit_zone_set afterwards, and the world.
def handler (fuel : Nat) (s : Ptr) (w : World) (r : Request) : Option (Answer × Bool × World) :=
  match r.limited with
  | none => some (.declined, r.limitZoneSet, w)
  | some (conf, data) =>
      if r.cleanupAdd then do
        let (answer, node, ζ) ← locked fuel s w.zone conf r.alloc data
        return (answer, true, ⟨ζ, ⟨node, data⟩ :: w.cleanups⟩)
      else some (.internalError, true, w)

-- ngx_http_limit_zone_cleanup, and ngx_slab_free_locked of a node that is no longer used
def cleanup (fuel : Nat) (s : Ptr) (ζ : Zone) (node : Ptr) : Option Zone := do
  let conn := (ζ.conn node + 65535) % 65536
  let ζ := { ζ with conn := put ζ.conn node conn }
  if conn = 0 then do
    let H ← Rbtree.delete fuel s ζ.nodes node
    return { ζ with nodes := H, key := put ζ.key node 0, slab := ζ.slab.erase node }
  else return ζ

-- A call of the handler, or the turn of one record while its pool is destroyed. The zone is touched
-- under its lock only, so that each of them is one step of the workers together.
inductive Move
  | handle (r : Request)
  | cleanup (i : Nat)

def step (fuel : Nat) (s : Ptr) (w : World) : Move → Option (Answer × World)
  | .handle r => do
      let (answer, _, w) ← handler fuel s w r
      return (answer, w)
  | .cleanup i =>
      match w.cleanups[i]? with
      | none => some (.declined, w)
      | some c =>
          match c.node with
          | none => some (.declined, { w with cleanups := w.cleanups.eraseIdx i })
          | some node => do
              let ζ ← cleanup fuel s w.zone node
              return (.declined, ⟨ζ, w.cleanups.eraseIdx i⟩)

-- The moves one after the other, each with its answer and the world behind it.
def run (fuel : Nat) (s : Ptr) : World → List Move → Option (List (Move × Answer × World))
  | _, [] => some []
  | w, m :: ms => do
      let (answer, w) ← step fuel s w m
      let log ← run fuel s w ms
      return (m, answer, w) :: log

-- The empty tree of ngx_http_limit_zone_init_zone
def start (s : Ptr) (ζ : Zone) : World :=
  ⟨{ ζ with nodes := (ζ.nodes.setLabel s false).setRoot s, slab := [] }, []⟩

-- The registered cleanups that point to a node, and the requests admitted with a key.
def pointing (w : World) (p : Ptr) : Nat := w.cleanups.countP fun c => c.node = some p

def admitted (w : World) (data : Bytes) : Nat :=
  w.cleanups.countP fun c => c.node.isSome && c.key = data

end Nginx.LimitZone
