import Nginx.Upstream.Retry

namespace Nginx.RoundRobin

-- ngx_http_upstream_ip_hash_peer_data_t with pc->tries in rrp; the field tries is an u_char.
structure IpHash where
  rrp : Request
  hash : Nat
  addr : UInt8 × UInt8 × UInt8
  tries : Nat
deriving DecidableEq

-- ngx_http_upstream_init_ip_hash_peer
def initIpHashPeer (primary : Peers) (backup : Option Peers) (addr : UInt8 × UInt8 × UInt8) : IpHash :=
  ⟨initRoundRobinPeer primary backup, 89, addr, 0⟩

-- for (i = 0; i < 3; i++)
def nextHash (addr : UInt8 × UInt8 × UInt8) (hash : Nat) : Nat :=
  [addr.1, addr.2.1, addr.2.2].foldl (fun hash a => (hash * 113 + a.toNat) % 6271) hash

-- The body of the loop for the peer p: true is the break.
def probe (now : Int) (p : Nat) (s : Conn) : Option (Bool × Conn) := do
  if ← tested s.tried p then return (false, s)
  else
    let peer ← s.peers.peer[p]?
    let miss := { s with tried := mark s.tried p, tries := decr s.tries }
    if peer.down then return (false, miss)
    else if inOrder peer then return (true, s)
    else if recovered now peer then
      let l := s.peers.peer.modify p ({ · with fails := 0 })
      return (true, { s with peers := { s.peers with peer := l } })
    else return (false, miss)

-- One pass of the loop: the next value of hash, the break, and the state. Only behind the break
-- are rrp->current and iphp->hash written.
def turn (now : Int) (hash : Nat) (s : IpHash) : Option (Nat × Bool × IpHash) := do
  let peers ← s.rrp.peers
  let hash := nextHash s.addr hash
  let p := hash % peers.peer.length
  let (found, c) ← probe now p ⟨peers, s.rrp.current, s.rrp.tried, s.rrp.tries⟩
  if found then
    return (hash, true, { s with rrp := s.rrp.store { c with current := p, tried := mark c.tried p }, hash })
  else return (hash, false, { s with rrp := s.rrp.store c, tries := (s.tries + 1) % 256 })

-- The loop; false is the fall back to round robin, none a loop that did not end.
def walk (now : Int) : Nat → Nat → IpHash → Option (Bool × IpHash)
  | 0, _, _ => none
  | i + 1, hash, s => do
      let (hash, found, s) ← turn now hash s
      if found then return (true, s)
      else if 20 ≤ s.tries then return (false, s) else walk now i hash s

def fallBack (now : Int) (s : IpHash) : Option (Rc × IpHash) :=
  (getRoundRobinPeer now s.rrp).map fun (rc, rrp) => (rc, { s with rrp })

-- More passes than an u_char has values are never made.
def fuel : Nat := 256

-- ngx_http_upstream_get_ip_hash_peer
def getIpHashPeer (now : Int) (s : IpHash) : Option (Rc × IpHash) := do
  let peers ← s.rrp.peers
  if 20 < s.tries ∨ peers.single then fallBack now s
  else
    let (found, s) ← walk now fuel s.hash s
    if found then return (.ok, s) else fallBack now s

section Trail

variable (now : Int)

-- The values of pc->tries behind each pass of a loop.
def firstTrail : Nat → Conn → List Nat
  | 0, _ => []
  | i + 1, s =>
      let (current, peer) := getPeer s.peers.peer
      match inspect now { s with current, peers := { s.peers with peer } } with
      | some (false, s) => s.tries :: if s.tries = 0 then [] else firstTrail i s
      | some (true, s) => [s.tries]
      | none => []

def nextTrail : Nat → Conn → List Nat
  | 0, _ => []
  | i + 1, s =>
      match inspect now s with
      | some (false, s) => s.tries :: if s.tries = 0 then [] else nextTrail i (advance s)
      | some (true, s) => [s.tries]
      | none => []

def roundRobinTrail (s : Conn) : List Nat :=
  if s.peers.single then []
  else if s.tries = s.peers.peer.length then firstTrail now (rounds s.tries) s
  else nextTrail now (rounds s.tries) s

def walkTrail : Nat → Nat → IpHash → List Nat
  | 0, _, _ => []
  | i + 1, hash, s =>
      match turn now hash s with
      | some (hash, false, s) => s.rrp.tries :: if 20 ≤ s.tries then [] else walkTrail i hash s
      | some (_, true, s) => [s.rrp.tries]
      | none => []

-- The passes of a call without backup peers, those of the fall back included.
def trail (s : IpHash) : List Nat :=
  if 20 < s.tries ∨ s.rrp.primary.single then roundRobinTrail now (conn s.rrp)
  else walkTrail now fuel s.hash s ++
    match walk now fuel s.hash s with
    | some (false, s) => roundRobinTrail now (conn s.rrp)
    | _ => []

end Trail

section Untried

-- The peers whose bit is not set.
def untried (tried : List (BitVec 64)) (n : Nat) : Nat :=
  (List.range n).countP fun i => tested tried i ≠ some true

theorem countP_range_update (q q' : Nat → Bool) (n p : Nat) (hp : p < n) (hq : q p = true)
    (hq' : q' p = false) (hsame : ∀ i, i ≠ p → q' i = q i) :
    (List.range n).countP q' + 1 = (List.range n).countP q := by
  induction n with
  | zero => omega
  | succ n ih =>
      rw [List.range_succ, List.countP_append, List.countP_append, List.countP_singleton,
        List.countP_singleton]
      rcases Nat.lt_succ_iff_lt_or_eq.mp hp with hlt | rfl
      · have hrec := ih hlt
        rw [hsame n (by omega)]
        omega
      · have hbelow : (List.range p).countP q' = (List.range p).countP q := by
          apply List.countP_congr
          intro i hi
          rw [hsame i (by have := List.mem_range.mp hi; omega)]
        rw [hbelow, hq, hq']
        simp

theorem tested_mark_of_ne (tried : List (BitVec 64)) (c i : Nat) (h : i ≠ c) :
    tested (mark tried c) i = tested tried i := by
  simp only [tested, mark, List.getElem?_modify]
  cases hw : tried[i / 64]? with
  | none => rfl
  | some w =>
      by_cases hword : c / 64 = i / 64
      · have hbit : i % 64 ≠ c % 64 := by omega
        have hlt : i % 64 < 64 := Nat.mod_lt _ (by decide)
        simp only [hword, if_true, Option.map_some]
        simp [hlt, hbit]
      · simp [hword]

theorem untried_mark (tried : List (BitVec 64)) (n p : Nat) (hp : p < n)
    (hfree : tested tried p = some false) (hword : p / 64 < tried.length) :
    untried (mark tried p) n + 1 = untried tried n := by
  apply countP_range_update _ _ n p hp
  · simp [hfree]
  · simp [tested_mark_self tried p hword]
  · intro i hi
    rw [tested_mark_of_ne tried p i hi]

theorem untried_le (tried : List (BitVec 64)) (n : Nat) : untried tried n ≤ n := by
  have h := List.countP_le_length (l := List.range n) (p := fun i => tested tried i ≠ some true)
  rwa [List.length_range] at h

theorem untried_lt (tried : List (BitVec 64)) (n p : Nat) (hp : p < n)
    (htried : tested tried p = some true) : untried tried n < n := by
  have hne : untried tried n ≠ n := by
    intro heq
    have hall := (List.countP_eq_length (l := List.range n)
      (p := fun i => tested tried i ≠ some true)).mp (heq.trans List.length_range.symm)
    simpa [htried] using hall p (List.mem_range.mpr hp)
  have := untried_le tried n
  omega

theorem tested_of_untried_zero (tried : List (BitVec 64)) (n p : Nat) (hp : p < n)
    (h : untried tried n = 0) : tested tried p = some true := by
  have hall := List.countP_eq_zero.mp h p (List.mem_range.mpr hp)
  simpa using hall

theorem untried_init (n m : Nat) : untried (List.replicate m 0) n = n := by
  have hall : (List.range n).countP (fun i => tested (List.replicate m 0) i ≠ some true) =
      (List.range n).length := by
    rw [List.countP_eq_length]
    intro i _
    by_cases hi : i / 64 < m <;> simp [tested, hi]
  exact hall.trans List.length_range

end Untried

end Nginx.RoundRobin
