import Nginx.Core.Bytes

namespace Nginx.RoundRobin

-- ngx_http_upstream_rr_peer_t
structure Peer where
  currentWeight : Int
  weight : Int
  fails : Nat
  accessed : Int
  maxFails : Nat
  failTimeout : Int
  down : Bool
deriving DecidableEq

-- ngx_http_upstream_rr_peers_t: number is the length of peer.
structure Peers where
  single : Bool
  lastCached : Nat
  peer : List Peer
deriving DecidableEq

-- What a request sees through rrp and pc: the array rrp->peers, its own position, the words of
-- the bitmap and pc->tries.
structure Conn where
  peers : Peers
  current : Nat
  tried : List (BitVec 64)
  tries : Nat
deriving DecidableEq

-- The words of the bitmap for n peers.
def words (n : Nat) : Nat := if n ≤ 64 then 1 else (n + 63) / 64

-- rrp->tried[n] & m, |= m, and the loop that clears number / 64 + 1 words; none is an access
-- behind the last word.
def tested (tried : List (BitVec 64)) (current : Nat) : Option Bool :=
  (tried[current / 64]?).map (·.getLsbD (current % 64))

def mark (tried : List (BitVec 64)) (current : Nat) : List (BitVec 64) :=
  tried.modify (current / 64) (· ||| BitVec.twoPow 64 (current % 64))

def clear (tried : List (BitVec 64)) (number : Nat) : Option (List (BitVec 64)) :=
  if number / 64 + 1 ≤ tried.length then
    some (List.replicate (number / 64 + 1) 0 ++ tried.drop (number / 64 + 1))
  else none

-- --x on an ngx_uint_t.
def decr (n : Nat) : Nat := if n = 0 then 2 ^ 64 - 1 else n - 1

-- peer[n].current_weight * 1000 / peer[i].current_weight
--     > peer[n].weight * 1000 / peer[i].weight
def heavier (n i : Peer) : Bool :=
  (toInt64 (n.weight * 1000)).tdiv i.weight < (toInt64 (n.currentWeight * 1000)).tdiv i.currentWeight

-- The while loop of get_peer: n is the candidate, i the index of the head of the list. The
-- assignment behind the loop repeats its last one.
def contest (candidate : Peer) (n : Nat) : List Peer → Nat → Nat
  | [], _ => n
  | p :: rest, i =>
      if p.currentWeight ≤ 0 then contest candidate n rest (i + 1)
      else if heavier candidate p then n else contest p i rest (i + 1)

-- The for loop of get_peer; none when no weight is left.
def scan : List Peer → Nat → Option Nat
  | [], _ => none
  | p :: rest, i =>
      if p.currentWeight ≤ 0 then scan rest (i + 1) else some (contest p i rest (i + 1))

def reset (peer : List Peer) : List Peer := peer.map fun p => { p with currentWeight := p.weight }

-- ngx_http_upstream_get_peer
def getPeer (peer : List Peer) : Nat × List Peer :=
  match scan peer 0 with
  | some n => (n, peer)
  | none => ((scan (reset peer) 0).getD 0, reset peer)

-- The two tests that accept a peer that is not down.
def inOrder (p : Peer) : Bool := p.maxFails = 0 ∨ p.fails < p.maxFails

def recovered (now : Int) (p : Peer) : Bool := p.failTimeout < now - p.accessed

-- The body of both selection loops up to the step to the next peer: true is the break.
def inspect (now : Int) (s : Conn) : Option (Bool × Conn) := do
  if ← tested s.tried s.current then return (false, s)
  else
    let p ← s.peers.peer[s.current]?
    let write := fun f => { s.peers with peer := s.peers.peer.modify s.current f }
    if p.down then return (false, { s with tried := mark s.tried s.current, tries := decr s.tries })
    else if inOrder p then return (true, s)
    else if recovered now p then return (true, { s with peers := write ({ · with fails := 0 }) })
    else return (false,
      { s with peers := write ({ · with currentWeight := 0 }), tries := decr s.tries })

-- The loop of the first try. The fuel is the counter i; false is goto failed.
def firstTry (now : Int) : Nat → Conn → Option (Bool × Conn)
  | 0, s => some (false, s)
  | i + 1, s => do
      let (current, peer) := getPeer s.peers.peer
      let (found, s) ← inspect now { s with current, peers := { s.peers with peer } }
      if found then return (true, s)
      else if s.tries = 0 then return (false, s) else firstTry now i s

def advance (s : Conn) : Conn :=
  { s with current := if s.current + 1 ≥ s.peers.peer.length then 0 else s.current + 1 }

-- The loop of a further try.
def nextTry (now : Int) : Nat → Conn → Option (Bool × Conn)
  | 0, s => some (false, s)
  | i + 1, s => do
      let (found, s) ← inspect now s
      if found then return (true, s)
      else
        let s := advance s
        if s.tries = 0 then return (false, s) else nextTry now i s

-- i = pc->tries counts 2^64 rounds when it starts at 0.
def rounds (tries : Nat) : Nat := if tries = 0 then 2 ^ 64 else tries

-- peer->current_weight--; rrp->tried[n] |= m;
def take (s : Conn) : Option Conn := do
  let _ ← s.peers.peer[s.current]?
  let peer := s.peers.peer.modify s.current fun p => { p with currentWeight := p.currentWeight - 1 }
  return { s with peers := { s.peers with peer }, tried := mark s.tried s.current }

-- The selection among rrp->peers; false is goto failed.
def select (now : Int) (s : Conn) : Option (Bool × Conn) := do
  if s.peers.single then
    let _ ← s.peers.peer[0]?
    return (true, s)
  else
    let loop := if s.tries = s.peers.peer.length then firstTry else nextTry
    let (found, s) ← loop now (rounds s.tries) s
    if found then return (true, ← take s) else return (false, s)

-- The lists of an upstream block, and whether rrp->peers has moved to primary->next. The next
-- field of the backup list is NULL.
structure Request where
  primary : Peers
  backup : Option Peers
  onBackup : Bool
  current : Nat
  tried : List (BitVec 64)
  tries : Nat
deriving DecidableEq

-- NGX_OK with a cached connection, NGX_OK with a peer, and NGX_BUSY.
inductive Rc where
  | cached
  | ok
  | busy
deriving DecidableEq

def Request.peers (r : Request) : Option Peers := if r.onBackup then r.backup else some r.primary

def Request.store (r : Request) (s : Conn) : Request :=
  { r with
    primary := if r.onBackup then r.primary else s.peers
    backup := if r.onBackup then some s.peers else r.backup
    current := s.current, tried := s.tried, tries := s.tries }

def forgive (peers : Peers) : Peers :=
  { peers with peer := peers.peer.map fun p => { p with fails := 0 } }

-- One pass of get_round_robin_peer over rrp->peers, with peers->next: false is goto failed.
def attempt (now : Int) (next : Option Peers) (s : Conn) : Option (Bool × Conn) := do
  let (found, s) ← select now s
  if found then
    match next with
    | some next =>
        if s.tries = 1 then
          return (true, { s with tries := s.tries + next.peer.length,
                                 tried := ← clear s.tried next.peer.length })
        else return (true, s)
    | none => return (true, s)
  else return (false, s)

-- ngx_http_upstream_get_round_robin_peer on the backup list.
def getBackup (now : Int) (backup : Peers) (r : Request) : Option (Rc × Request) := do
  if backup.lastCached ≠ 0 then
    return (.cached, { r with backup := some { backup with lastCached := backup.lastCached - 1 } })
  else
    let (found, s) ← attempt now none ⟨backup, r.current, r.tried, r.tries⟩
    if found then return (.ok, r.store s)
    else return (.busy, r.store { s with peers := forgive s.peers })

-- ngx_http_upstream_get_round_robin_peer
def getRoundRobinPeer (now : Int) (r : Request) : Option (Rc × Request) := do
  if r.onBackup then getBackup now (← r.backup) r
  else if r.primary.lastCached ≠ 0 then
    return (.cached, { r with primary := { r.primary with lastCached := r.primary.lastCached - 1 } })
  else
    let (found, s) ← attempt now r.backup ⟨r.primary, r.current, r.tried, r.tries⟩
    let r := r.store s
    if found then return (.ok, r)
    else
      match r.backup with
      | none => return (.busy, { r with primary := forgive r.primary })
      | some backup =>
          let tried ← clear r.tried backup.peer.length
          let (rc, r) ← getBackup now backup
            { r with onBackup := true, tries := backup.peer.length, tried }
          if rc = .busy then return (.busy, { r with primary := forgive r.primary })
          else return (rc, r)

def failed (now : Int) (p : Peer) : Peer :=
  let weight :=
    if p.maxFails ≠ 0 then p.currentWeight - (toSize p.weight / p.maxFails : Nat) else p.currentWeight
  { p with fails := (p.fails + 1) % 2 ^ 64, accessed := now,
           currentWeight := if weight < 0 then 0 else weight }

-- What state & NGX_PEER_FAILED does to &rrp->peers->peer[rrp->current].
def account (now : Int) (fail : Bool) (peer : List Peer) (current : Nat) : Option (List Peer) :=
  if fail then (peer[current]?).map fun _ => peer.modify current (failed now) else some peer

-- ngx_http_upstream_free_round_robin_peer; zero is state == 0.
def freeRoundRobinPeer (now : Int) (fail zero : Bool) (r : Request) : Option Request := do
  if zero ∧ r.tries = 0 then return r
  else
    let peers ← r.peers
    if peers.single then return { r with tries := 0 }
    else
      let peer ← account now fail peers.peer r.current
      let s := advance ⟨{ peers with peer }, r.current, r.tried, r.tries⟩
      return r.store { s with tries := r.tries - 1 }

-- ngx_http_upstream_init_round_robin_peer
def initRoundRobinPeer (primary : Peers) (backup : Option Peers) : Request :=
  let n := max primary.peer.length ((backup.map (·.peer.length)).getD 0)
  ⟨primary, backup, false, 0, List.replicate (words n) 0, primary.peer.length⟩

end Nginx.RoundRobin
