import Nginx.Core.Hash
import Nginx.Core.Memcmp
import Nginx.Core.Queue

namespace Nginx.Location

open Hash (strncmp)

-- ngx_http_core_loc_conf_t; regex is whether there is one.
structure Clcf (α : Type) where
  name : Bytes
  noname : Bool := false
  named : Bool := false
  exactMatch : Bool := false
  regex : Bool := false
  autoRedirect : Bool := false
  locConf : α
deriving DecidableEq, Repr

-- ngx_http_location_queue_t without the queue of the locations below it
structure Lq (α : Type) where
  exact : Option (Clcf α)
  inclusive : Option (Clcf α)
  name : Bytes
deriving DecidableEq, Repr

variable {α : Type}

-- ngx_http_add_location
def addLocation (clcf : Clcf α) : Lq α :=
  if clcf.exactMatch || clcf.regex || clcf.named || clcf.noname then
    { exact := some clcf, inclusive := none, name := clcf.name }
  else { exact := none, inclusive := some clcf, name := clcf.name }

-- lq->exact ? lq->exact : lq->inclusive
def Lq.first (lq : Lq α) : Option (Clcf α) := lq.exact.or lq.inclusive

def cmpClcf (first second : Clcf α) : Int :=
  if first.noname && !second.noname then 1
  else if !first.noname && second.noname then -1
  else if first.noname || second.noname then 0
  else if first.named && !second.named then 1
  else if !first.named && second.named then -1
  else if first.named && second.named then strcmp first.name second.name
  else if first.regex && !second.regex then 1
  else if !first.regex && second.regex then -1
  else if first.regex || second.regex then 0
  else
    let rc := strcmp first.name second.name
    -- an exact match must be before the same inclusive one
    if rc = 0 ∧ !first.exactMatch ∧ second.exactMatch then 1 else rc

-- ngx_http_cmp_locations; every element of the queue holds a location.
def cmpLocations (one two : Lq α) : Int :=
  match one.first, two.first with
  | some first, some second => cmpClcf first second
  | _, _ => 0

-- ngx_http_join_exact_locations from the element lq on; none is NGX_ERROR.
def joinFrom (lq : Lq α) : List (Lq α) → Option (List (Lq α))
  | [] => some [lq]
  | lx :: rest =>
      if strcmp lq.name lx.name = 0 then
        if (lq.exact.isSome && lx.exact.isSome) || (lq.inclusive.isSome && lx.inclusive.isSome) then none
        else joinFrom { lq with inclusive := lx.inclusive } rest
      else (joinFrom lx rest).map (lq :: ·)

def joinExactLocations : List (Lq α) → Option (List (Lq α))
  | [] => some []
  | lq :: rest => joinFrom lq rest

-- A queue whose elements have queues of their own: an element, the queue below it and what follows.
inductive Locations (α : Type) where
  | nil
  | cons (lq : Lq α) (list next : Locations α)

-- The elements of the queue itself, each with the queue below it
def Locations.level : Locations α → List (Lq α × Locations α)
  | .nil => []
  | .cons lq list next => (lq, list) :: next.level

-- The test of the loop in ngx_http_create_locations_list that does not end it
def isUnder (lq lx : Lq α) : Bool :=
  !(decide (lq.name.length > lx.name.length) || !strncmp lq.name.length lq.name lx.name)

-- ngx_http_create_locations_list from an element on; no call goes deeper than there are elements.
def createLocationsList : Nat → List (Lq α) → Locations α
  | 0, _ => .nil
  | _, [] => .nil
  | _ + 1, [lq] => .cons lq .nil .nil
  | n + 1, lq :: next =>
      if lq.inclusive.isNone then .cons lq .nil (createLocationsList n next)
      else
        .cons lq (createLocationsList n (next.takeWhile (isUnder lq)))
          (createLocationsList n (next.dropWhile (isUnder lq)))

-- ngx_http_location_tree_node_t
inductive Node (α : Type) where
  | null
  | node (left right tree : Node α) (exact inclusive : Option (Clcf α)) (autoRedirect : Bool) (len : UInt8)
      (name : Bytes)

-- ngx_http_create_locations_tree
def createLocationsTree : Nat → List (Lq α × Locations α) → Nat → Node α
  | 0, _, _ => .null
  | n + 1, locations, pre =>
      match Queue.middle locations with
      | [] => .null
      | (lq, list) :: tail =>
          let len := lq.name.length - pre
          -- ngx_queue_split
          let left := locations.take (locations.length - (tail.length + 1))
          .node (if left.isEmpty then .null else createLocationsTree n left pre)
            (if left.isEmpty || tail.isEmpty then .null else createLocationsTree n tail pre)
            (if list.level.isEmpty then .null else createLocationsTree n list.level (pre + len))
            lq.exact lq.inclusive
            (lq.exact.any Clcf.autoRedirect || lq.inclusive.any Clcf.autoRedirect)
            (UInt8.ofNat len) (lq.name.drop pre)

-- ngx_http_init_locations and ngx_http_init_static_location_trees where all locations are '=' or prefix ones; none is
-- NGX_ERROR.
def initStaticLocations : List (Clcf α) → Option (Node α)
  | [] => some .null
  | clcfs =>
      match joinExactLocations (Queue.sort cmpLocations (clcfs.map addLocation)) with
      | none => none
      | some locations =>
          some (createLocationsTree locations.length (createLocationsList locations.length locations).level 0)

inductive Rc where
  | ok
  | done
  | again
  | declined
deriving DecidableEq, Repr

-- ngx_http_core_find_static_location with rv and r->loc_conf; none is a NULL location read.
def findStaticLocation : Node α → Bytes → Rc → α → Option (Rc × α)
  | .null, _, rv, locConf => some (rv, locConf)
  | .node left right tree exact inclusive autoRedirect nodeLen name, uri, rv, locConf =>
      let len := uri.length
      let n := if len ≤ nodeLen.toNat then len else nodeLen.toNat
      let rc := memcmp uri name n
      if rc ≠ 0 then
        if rc < 0 then findStaticLocation left uri rv locConf else findStaticLocation right uri rv locConf
      else if len > nodeLen.toNat then
        match inclusive with
        | some clcf => findStaticLocation tree (uri.drop n) .again clcf.locConf
        | none => findStaticLocation right uri rv locConf
      else if len = nodeLen.toNat then
        match exact with
        | some clcf => some (.ok, clcf.locConf)
        | none => inclusive.map fun clcf => (.again, clcf.locConf)
      else if len + 1 = nodeLen.toNat ∧ autoRedirect then
        match exact.or inclusive with
        | some clcf => findStaticLocation left uri .done clcf.locConf
        | none => none
      else findStaticLocation left uri rv locConf

end Nginx.Location
